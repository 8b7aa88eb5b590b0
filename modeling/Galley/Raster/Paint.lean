import Galley.Raster.Coverage
import Galley.Raster.Pattern
import Galley.Raster.Tile

/-! Painting on pixmaps, tile by tile: outlines in one color, and other pixmaps scaled and shifted. -/

namespace Galley.Raster

def shifted (steps : List PenStep) (x y : Float32) : List PenStep :=
  steps.map (PenStep.map fun p => ⟨p.x + x, p.y + y⟩)

def hasArea (steps : List PenStep) : Bool :=
  (Box.around? (PenStep.marks steps)).any fun b => !negligible b.width && !negligible b.height

namespace Pixmap

def inkRow (tile : Tile) (color : Pixel) (m : Pixmap) (row : CoverageRow) : Pixmap :=
  (List.range row.cells.size).foldl (fun m i =>
    match row.cells[i]?.getD 0 with
    | 0 => m
    | cell => m.modify (tile.x + row.left + i) (tile.y + row.y) (Pixel.ink color (UInt8.ofNat cell))) m

def fillOutline (m : Pixmap) (steps : List PenStep) (color : Color) : Pixmap :=
  if !hasArea steps then m else
  let paint (state : Pixmap × List PenStep) (tile : Tile) : Pixmap × List PenStep :=
    let (m, steps) := state
    let (x, y) := (Float32.ofNat tile.x, Float32.ofNat tile.y)
    let steps := shifted steps (-x) (-y)
    let rows := coverage tile.width tile.height steps
    (rows.foldl (inkRow tile (.ofColor color)) m, shifted steps x y)
  (m.tiles.foldl paint (m, steps)).1

def border (m : Pixmap) : List PenStep :=
  let (w, h) := (Float32.ofNat m.width, Float32.ofNat m.height)
  [.moveTo ⟨0, 0⟩, .lineTo ⟨w, 0⟩, .lineTo ⟨w, h⟩, .lineTo ⟨0, h⟩, .close]

def stampSpan (tile : Tile) (source : Pixmap) (t : Placement) (m : Pixmap) (span : Span) : Pixmap :=
  let y := span.y.toNat
  (List.range' span.start.toNat (span.stop - span.start).toNat).foldl (fun m x =>
    m.modify (tile.x + x) (tile.y + y) fun below =>
      ((source.sample t x y).atop (.ofPixel below)).toPixel) m

def drawPixmap (m source : Pixmap) (t : Placement) : Pixmap :=
  let steps := source.border.map (PenStep.map t.apply)
  if !hasArea steps then m else
  let paint (state : Pixmap × List PenStep × Placement) (tile : Tile) :
      Pixmap × List PenStep × Placement :=
    let (m, steps, t) := state
    let (x, y) := (Float32.ofNat tile.x, Float32.ofNat tile.y)
    let steps := shifted steps (-x) (-y)
    let t := t.moved (-x) (-y)
    let spans := middleSpans tile.width tile.height steps
    (spans.foldl (stampSpan tile source t) m, shifted steps x y, t.moved x y)
  (m.tiles.foldl paint (m, steps, t)).1

end Pixmap

end Galley.Raster
