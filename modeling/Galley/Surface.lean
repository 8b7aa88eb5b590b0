import Galley.Font.Registry
import Galley.Raster.Paint

/-! A drawing target of pixels, one for each point. Texts are painted from the outlines of registered fonts,
images from the pixels they carry; other fonts and images leave no trace. -/

namespace Galley

open Raster

structure Surface where
  pixmap : Pixmap
  fonts : FontRegistry

namespace Surface

def create (width height : UInt32) (fonts : FontRegistry) : Except Failure Surface :=
  if Pixmap.Fits width height then .ok ⟨.blank width.toNat height.toNat, fonts⟩
  else .error (.surfaceDimensions width height)

def fill (s : Surface) (color : Color) : Surface := { s with pixmap := s.pixmap.fill color }

def pixel? (s : Surface) (x y : Nat) : Option Color := (s.pixmap.pixel? x y).map Pixel.toColor

def coordinate (l : Length) : Float32 := .ofBits l.toSingle

def drawText (s : Surface) (position : Point) (size : Size) (text : String) (format : Format) : Surface :=
  match s.fonts.get? format.font.name with
  | none => s
  | some font =>
    let corner := topLeft position size
    let scale := coordinate font.size / Float32.ofNat font.face.unitsPerEm
    let baseline := coordinate corner.y + Float32.ofInt font.face.vertical.ascender.toInt * scale
    let outlines := font.outlines scale (coordinate corner.x) baseline text.toList
    { s with pixmap := outlines.foldl (fun m outline => m.fillOutline outline format.color) s.pixmap }

def drawImage (s : Surface) (position : Point) (size : Size) (image : Image) (tint : Color) : Surface :=
  match Pixmap.ofImage? image tint with
  | none => s
  | some source =>
    let corner := topLeft position size
    let placement : Placement :=
      { scaleX := coordinate size.width / Float32.ofNat source.width
        scaleY := coordinate size.height / Float32.ofNat source.height
        shiftX := coordinate corner.x
        shiftY := coordinate corner.y }
    { s with pixmap := s.pixmap.drawPixmap source placement }

instance : DrawTarget Surface := ⟨drawText, drawImage⟩

end Surface

end Galley
