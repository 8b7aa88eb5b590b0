import Galley.Color

/-! Premultiplied pixels and the integer arithmetic of their channels. A channel stands for a fraction of
255, and no color channel of a sound pixel exceeds its alpha. -/

namespace Galley.Raster

structure Pixel where
  r : UInt8 := 0
  g : UInt8 := 0
  b : UInt8 := 0
  a : UInt8 := 0
  deriving DecidableEq, Inhabited

/-- The product of two channels, rounded. Sixteen bits hold it: `255 * 255 + 127 + 254 < 2 ^ 16`. -/
def mulChannel (c f : UInt8) : UInt8 :=
  let product := c.toUInt16 * f.toUInt16 + 127
  ((product + (product >>> 8)) >>> 8).toUInt8

namespace Pixel

def transparent : Pixel := {}

/-- Each color channel times alpha, rounded. A product is never halfway between two channels. -/
def ofColor (c : Color) : Pixel :=
  let premultiplied (v : UInt8) : UInt8 := UInt8.ofNat ((2 * v.toNat * c.a.toNat + 255) / 510)
  ⟨premultiplied c.r, premultiplied c.g, premultiplied c.b, c.a⟩

def toColor (p : Pixel) : Color :=
  if p.a = 255 then ⟨p.r, p.g, p.b, 255⟩ else
  let alpha := p.a.toFloat / 255
  let straight (v : UInt8) : UInt8 := (v.toFloat / alpha + 0.5).toUInt8
  ⟨straight p.r, straight p.g, straight p.b, p.a⟩

def tinted (c tint : Color) : Pixel :=
  let a := mulChannel c.a tint.a
  let channel (v t : UInt8) : UInt8 := mulChannel (mulChannel v t) a
  ⟨channel c.r tint.r, channel c.g tint.g, channel c.b tint.b, a⟩

/-- The quotient by 255 as painting takes it, rounded up a little. -/
def div255 (n : Nat) : Nat := (n + 255) / 256

def fade (v coverage : UInt8) : UInt8 := UInt8.ofNat (div255 (v.toNat * coverage.toNat))

def through (v alpha : UInt8) : UInt8 := UInt8.ofNat (div255 (v.toNat * (255 - alpha.toNat)))

def mix (v w coverage : UInt8) : UInt8 :=
  UInt8.ofNat (div255 (v.toNat * (255 - coverage.toNat) + w.toNat * coverage.toNat))

def zipWith (f : UInt8 → UInt8 → UInt8) (p q : Pixel) : Pixel :=
  ⟨f p.r q.r, f p.g q.g, f p.b q.b, f p.a q.a⟩

def atop (top below : Pixel) : Pixel :=
  zipWith (fun s d => s + through d top.a) top below

/-- Lays a color over a pixel where an outline covers a part of it. An opaque color mixes, and replaces the
pixel under full coverage; any other is faded first. -/
def ink (color : Pixel) (coverage : UInt8) (below : Pixel) : Pixel :=
  if color.a = 255 then
    if coverage = 255 then color else zipWith (fun d s => mix d s coverage) below color
  else if coverage = 255 then color.atop below
  else
    (⟨fade color.r coverage, fade color.g coverage, fade color.b coverage, fade color.a coverage⟩ : Pixel).atop
      below

end Pixel

end Galley.Raster
