import Galley.Outline
import Galley.Raster.Pixmap

/-! Pixmaps as patterns: sampled under a scaling and a shift, in single precision, and laid over pixels. -/

namespace Galley.Raster

structure Sample where
  r : Float32 := 0
  g : Float32 := 0
  b : Float32 := 0
  a : Float32 := 0

namespace Sample

def ofPixel (p : Pixel) : Sample :=
  let unit : Float32 := 1 / 255
  ⟨p.r.toFloat32 * unit, p.g.toFloat32 * unit, p.b.toFloat32 * unit, p.a.toFloat32 * unit⟩

def toChannel (v : Float32) : UInt8 :=
  let v := (if v < 0 then 0 else if 1 < v then 1 else v) * 255
  let low := v.toUInt8
  let rest := v - low.toFloat32
  if rest < 0.5 || (rest == 0.5 && low % 2 == 0) then low else low + 1

def toPixel (s : Sample) : Pixel := ⟨toChannel s.r, toChannel s.g, toChannel s.b, toChannel s.a⟩

def addScaled (s t : Sample) (w : Float32) : Sample :=
  ⟨w * t.r + s.r, w * t.g + s.g, w * t.b + s.b, w * t.a + s.a⟩

def atop (top below : Sample) : Sample := top.addScaled below (1 - top.a)

end Sample

structure Placement where
  scaleX : Float32 := 1
  scaleY : Float32 := 1
  shiftX : Float32 := 0
  shiftY : Float32 := 0

namespace Placement

def apply (t : Placement) (p : Spot) : Spot :=
  ⟨p.x * t.scaleX + t.shiftX, p.y * t.scaleY + t.shiftY⟩

def inverse (t : Placement) : Placement :=
  let x := 1 / t.scaleX
  let y := 1 / t.scaleY
  ⟨x, y, -t.shiftX * x, -t.shiftY * y⟩

def isUnscaled (t : Placement) : Bool := t.scaleX == 1 && t.scaleY == 1

def moved (t : Placement) (x y : Float32) : Placement :=
  { t with shiftX := t.shiftX + x, shiftY := t.shiftY + y }

end Placement

/-- A coordinate as an index below `n`. Those outside go to the nearest pixel. -/
def clampIndex (n : Nat) (x : Float32) : Nat :=
  let last := Float32.ofBits ((Float32.ofNat n).toBits - 1)
  let x := if x > 0 then x else 0
  (if x < last then x else last).toUInt64.toNat

namespace Pixmap

def nearest (m : Pixmap) (p : Spot) : Sample :=
  .ofPixel ((m.pixel? (clampIndex m.width p.x) (clampIndex m.height p.y)).getD .transparent)

def smooth (m : Pixmap) (p : Spot) : Sample :=
  let part (x : Float32) : Float32 := (x + 0.5) - (x + 0.5).floor
  let (fx, fy) := (part p.x, part p.y)
  let (x, y) := (p.x - 0.5, p.y - 0.5)
  let add (s : Sample) (x y w : Float32) : Sample := s.addScaled (m.nearest ⟨x, y⟩) w
  let s := add {} x y ((1 - fx) * (1 - fy))
  let s := add s (x + 1) y (fx * (1 - fy))
  let s := add s x (y + 1) ((1 - fx) * fy)
  add s (x + 1) (y + 1) (fx * fy)

def sample (m : Pixmap) (t : Placement) (x y : Nat) : Sample :=
  let back := t.inverse
  let p := back.apply ⟨Float32.ofNat x + 0.5, Float32.ofNat y + 0.5⟩
  if t.isUnscaled || back.isUnscaled then m.nearest p else m.smooth p

end Pixmap

end Galley.Raster
