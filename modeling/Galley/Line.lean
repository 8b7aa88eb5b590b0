import Galley.Element
import Galley.Error

/-! Setting items on lines. Items wait on an open line until the next one does not fit, a break comes or
the pass ends; then the line has its height and its items their middle. -/

namespace Galley

structure Placed where
  body : Body
  size : Size
  x : Length

structure Line where
  top : Length
  items : List Placed

namespace Line

def height (l : Line) : Length := (l.items.map (·.size.height)).foldl max 0

/-- Where the items end; pen travel beyond an item does not count. -/
def width (l : Line) : Length := (l.items.map fun i => i.x + i.size.width).foldl max 0

def elements (l : Line) : List Element :=
  l.items.map fun i => ⟨i.body, i.size, ⟨i.x, l.top + l.height.half⟩⟩

end Line

/-- A column of lines under construction. Finished lines and open items are kept last first. -/
structure Column where
  maxWidth : Length
  finished : List Line := []
  pending : List Placed := []
  pen : Length := 0
  top : Length := 0
  widest : Length := 0
  height : Length := 0

namespace Column

def finishLine (k : Column) : Column :=
  let line : Line := ⟨k.top, k.pending.reverse⟩
  { k with
    finished := line :: k.finished
    pending := []
    pen := 0
    top := k.top + line.height
    widest := max k.widest line.width
    height := k.height + line.height }

/-- Whether an item of this width has to start a new line. The first item of a line never does. -/
def overflows (k : Column) (width : Length) : Bool :=
  !k.pending.isEmpty && k.maxWidth < k.pen + width

def place (k : Column) (body : Body) (size : Size) (advance : Length) : Column :=
  let k := if k.overflows size.width then k.finishLine else k
  { k with
    pending := ⟨body, size, k.pen⟩ :: k.pending
    pen := k.pen + (size.width + advance) }

def leaveBlank (k : Column) (spacing : Length) : Column :=
  { k with pen := 0, top := k.top + spacing, height := k.height + spacing }

/-- Breaks the line: an open line with items ends, and with no item an empty line is left. Only then
has its height to be known. -/
def lineBreak (k : Column) (spacing : Except Failure Length) : Except Failure Column :=
  if k.pending.isEmpty then do return k.leaveBlank (← spacing) else .ok k.finishLine

def finish (k : Column) : Column := if k.pending.isEmpty then k else k.finishLine

def lines (k : Column) : List Line := k.finished.reverse

def elements (k : Column) : List Element := k.lines.flatMap Line.elements

def size (k : Column) : Size := ⟨k.widest, k.height⟩

end Column

end Galley
