import Galley.Raster.Clip
import Galley.Raster.Scan

/-! How much of each pixel an outline covers, by the nonzero rule. Sixteen samples lie in a pixel: four rows,
and four columns in each. -/

namespace Galley.Raster

structure Frame where
  left : Int
  top : Int
  right : Int
  bottom : Int

namespace Frame

def floor (x : Float32) : Int := x.floor.toInt32.toInt

def ceil (x : Float32) : Int := x.ceil.toInt32.toInt

def touched (b : Box) : Frame :=
  let (left, top) := (floor b.minX, floor b.minY)
  ⟨left, top, left + max 1 (ceil (b.maxX.ceil - b.minX.floor)),
    top + max 1 (ceil (b.maxY.ceil - b.minY.floor))⟩

/-- How far beyond a pixel's middle a box may end and still count as reaching it. -/
def slack : Float := 0.5 + 1.5 / 64

def middles? (b : Box) : Option Frame :=
  let low (x : Float32) : Int := (x.toFloat - slack).ceil.toInt32.toInt
  let high (x : Float32) : Int := (x.toFloat + slack).floor.toInt32.toInt
  let f : Frame := ⟨low b.minX, low b.minY, high b.maxX, high b.maxY⟩
  if f.left < f.right ∧ f.top < f.bottom then some f else none

def liesOn (f : Frame) (width height : Nat) : Bool :=
  0 ≤ f.left && 0 ≤ f.top && f.right ≤ width && f.bottom ≤ height

def onSurface (f : Frame) (width height : Nat) : Frame :=
  ⟨max 0 f.left, max 0 f.top, min width f.right, min height f.bottom⟩

def isEmpty (f : Frame) : Bool := f.right ≤ f.left || f.bottom ≤ f.top

end Frame

/-- The spans of segments on a surface, with `2 ^ shift` rows and columns to a pixel. Only segments that reach
beyond the surface are clipped. -/
def spansOn (width height shift : Nat) (f : Frame) (segments : List Segment) : List Span :=
  let box : Box := ⟨0, 0, Float32.ofNat width, Float32.ofNat height⟩
  let parts :=
    if f.liesOn width height then segments.flatMap Segment.monotone
    else segments.flatMap (Segment.clip box)
  let inside := f.onSurface width height
  spansBetween (Edge.ofSegments shift parts) (inside.top * power shift) (inside.bottom * power shift)
    (width * power shift)

structure CoverageRow where
  y : Nat
  left : Nat
  cells : Array Nat

namespace CoverageRow

/-- Adds to a cell. A full cell counts 256 parts at most, of which one is dropped. -/
def add (cells : Array Nat) (i n : Nat) : Array Nat :=
  cells.modify i fun c => let c := c + n; c - c / 256

/-- Adds samples `start` to `stop` of the sample row `sub`, sixteen parts for each; in the last sample row of a
pixel, one part less for four together. -/
def addSamples (cells : Array Nat) (sub start stop : Nat) : Array Nat :=
  let (first, last) := (start / 4, stop / 4)
  if first = last then add cells first (16 * (stop - start)) else
  let whole := if sub = 3 then 63 else 64
  let (cells, from') :=
    if start % 4 = 0 then (cells, first) else (add cells first (16 * (4 - start % 4)), first + 1)
  let cells := (List.range' from' (last - from')).foldl (fun cells i => add cells i whole) cells
  if stop % 4 = 0 then cells else add cells last (16 * (stop % 4))

def addSpan (r : CoverageRow) (s : Span) : CoverageRow :=
  let start := s.start - 4 * r.left
  let stop := if start < 0 then s.stop else s.stop - 4 * r.left
  { r with cells := addSamples r.cells (s.y % 4).toNat start.toNat stop.toNat }

def ofSpans (f : Frame) (spans : List Span) : List CoverageRow :=
  let blank (y : Int) : CoverageRow :=
    ⟨y.toNat, f.left.toNat, .replicate (f.right - f.left).toNat 0⟩
  (spans.splitBy fun s t => s.y / 4 == t.y / 4).map fun row =>
    row.foldl addSpan (blank ((row.head?.map fun s => s.y / 4).getD 0))

end CoverageRow

def coverage (width height : Nat) (steps : List PenStep) : List CoverageRow :=
  match (Box.around? (PenStep.marks steps)).map Frame.touched with
  | none => []
  | some f =>
    let inside := f.onSurface width height
    if inside.isEmpty then []
    else CoverageRow.ofSpans inside (spansOn width height 2 f (Segment.ofSteps steps))

def middleSpans (width height : Nat) (steps : List PenStep) : List Span :=
  match (Box.around? (PenStep.marks steps)).bind Frame.middles? with
  | none => []
  | some f => spansOn width height 0 f (Segment.ofSteps steps)

end Galley.Raster
