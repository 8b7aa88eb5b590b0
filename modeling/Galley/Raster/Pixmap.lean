import Galley.Element
import Galley.Raster.Pixel

/-! Rectangles of pixels, row by row from the top. -/

namespace Galley.Raster

structure Pixmap where
  width : Nat
  height : Nat
  pixels : Vector Pixel (height * width)

namespace Pixmap

/-- Whether a pixmap of these dimensions can be had: neither side is zero, and the bytes of a row can be
counted in 31 bits. -/
def Fits (width height : UInt32) : Prop :=
  width ≠ 0 ∧ height ≠ 0 ∧ width.toNat * 4 < 0x80000000

instance (width height : UInt32) : Decidable (Fits width height) := by
  unfold Fits; infer_instance

def blank (width height : Nat) : Pixmap := ⟨width, height, .replicate _ .transparent⟩

def pixel? (m : Pixmap) (x y : Nat) : Option Pixel :=
  if x < m.width then m.pixels[y * m.width + x]? else none

def fill (m : Pixmap) (color : Color) : Pixmap := { m with pixels := .replicate _ (.ofColor color) }

def modify (m : Pixmap) (x y : Nat) (f : Pixel → Pixel) : Pixmap :=
  let i := y * m.width + x
  if x < m.width then
    match m.pixels[i]? with
    | some p => { m with pixels := m.pixels.setIfInBounds i (f p) }
    | none => m
  else m

def colorAt (rgba : ByteArray) (i : Nat) : Color :=
  let byte (k : Nat) : UInt8 := rgba[4 * i + k]?.getD 0
  ⟨byte 0, byte 1, byte 2, byte 3⟩

/-- The pixels of an image under a tint. Handles without pixels, or with bytes that do not match their
dimensions, have none. -/
def ofImage? (image : Image) (tint : Color) : Option Pixmap := do
  let rgba ← image.rgba
  let width := image.width.toNat
  let height := image.height.toNat
  if Fits image.width image.height ∧ rgba.size = width * height * 4 then
    return ⟨width, height, .ofFn fun i => .tinted (colorAt rgba i) tint⟩
  else none

end Pixmap

end Galley.Raster
