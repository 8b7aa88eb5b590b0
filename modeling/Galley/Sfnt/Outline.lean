import Galley.Outline

/-! Which outlines a face draws: those with spots, all of them within the range of font units. -/

namespace Galley.Sfnt

def fits (x : Float32) : Bool := -32769 < x && x < 32768

def inRange (b : Box) : Bool := fits b.minX && fits b.minY && fits b.maxX && fits b.maxY

/-- Outlines without spots, or beyond the range of font units, are not drawn. -/
def drawable (steps : List PenStep) : Bool :=
  (Box.around? (steps.flatMap PenStep.spots)).any inRange

end Galley.Sfnt
