import Galley.Geometry
import Galley.Color

/-! What is set on lines: words in a font and a color, and tinted images. Positions name the middle of the
left edge of an element's box. -/

namespace Galley

/-- A font measures texts, and may run out of bits on a long one. -/
structure Font where
  name : String
  measure : String → Except Overflow Size
  lineSpacing : Length

/-- An image by its pixel dimensions. Handles with pixels hold four straight bytes for each, row by row. -/
structure Image where
  name : String
  width : UInt32
  height : UInt32
  rgba : Option ByteArray := none

/-- A pixel is a point. Every handle is taken to be as large as its pixels, though one of another make could
give itself another size. -/
def Image.size (i : Image) : Size := ⟨.ofPoints i.width.toNat, .ofPoints i.height.toNat⟩

structure Format where
  font : Font
  color : Color

inductive Body where
  | word (text : String) (format : Format)
  | image (image : Image) (tint : Color)

structure Element where
  body : Body
  size : Size
  position : Point

namespace Element

def ofImage (image : Image) (position : Point) (tint : Color) : Element :=
  ⟨.image image tint, image.size, position⟩

end Element

/-- The upper left corner of a box by the middle of its left edge. -/
def topLeft (position : Point) (size : Size) : Point := ⟨position.x, position.y - size.height.half⟩

class DrawTarget (σ : Type) where
  drawText : σ → Point → Size → String → Format → σ
  drawImage : σ → Point → Size → Image → Color → σ

def Element.draw {σ : Type} [DrawTarget σ] (e : Element) (target : σ) (offset : Point) : σ :=
  match e.body with
  | .word text format => DrawTarget.drawText target (e.position + offset) e.size text format
  | .image image tint => DrawTarget.drawImage target (e.position + offset) e.size image tint

end Galley
