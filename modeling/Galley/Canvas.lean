import Galley.Compiled

/-! A drawing target that records commands. A font or a color already in force is not set again. -/

namespace Galley

inductive Command where
  | setFill (color : Color)
  | setFont (name : String)
  | drawString (text : String) (position : Point) (size : Size)
  | drawImage (name : String) (tint : Color) (position : Point) (size : Size)
  deriving DecidableEq

structure Canvas where
  recorded : List Command := []
  fill : Option Color := none
  font : Option String := none
  deriving DecidableEq

namespace Canvas

def commands (c : Canvas) : List Command := c.recorded.reverse

def isEmpty (c : Canvas) : Bool := c.recorded.isEmpty

def setFill (c : Canvas) (color : Color) : Canvas :=
  if c.fill = some color then c
  else { c with fill := some color, recorded := .setFill color :: c.recorded }

def setFont (c : Canvas) (name : String) : Canvas :=
  if c.font = some name then c
  else { c with font := some name, recorded := .setFont name :: c.recorded }

def clear (_ : Canvas) : Canvas := {}

def drawText (c : Canvas) (position : Point) (size : Size) (text : String) (format : Format) : Canvas :=
  let c := (c.setFont format.font.name).setFill format.color
  { c with recorded := .drawString text position size :: c.recorded }

def drawImage (c : Canvas) (position : Point) (size : Size) (image : Image) (tint : Color) : Canvas :=
  { c with recorded := .drawImage image.name tint position size :: c.recorded }

instance : DrawTarget Canvas := ⟨drawText, drawImage⟩

end Canvas

end Galley
