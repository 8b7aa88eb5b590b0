import Galley.Raster.Pixmap

/-! Tiles. Large pixmaps are painted in parts, none of which has a side beyond what the sample grid can count. -/

namespace Galley.Raster

structure Tile where
  x : Nat
  y : Nat
  width : Nat
  height : Nat

namespace Tile

def limit : Nat := 8191

def starts (side : Nat) : List Nat := (List.range ((side + limit - 1) / limit)).map (· * limit)

end Tile

def Pixmap.tiles (m : Pixmap) : List Tile :=
  (Tile.starts m.height).flatMap fun y => (Tile.starts m.width).map fun x =>
    ⟨x, y, min Tile.limit (m.width - x), min Tile.limit (m.height - y)⟩

end Galley.Raster
