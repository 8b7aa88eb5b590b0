/-! Outlines: steps of a pen over a plane of single-precision coordinates. -/

namespace Galley

structure Spot where
  x : Float32
  y : Float32

namespace Spot

def toward (p q : Spot) (t : Float32) : Spot := ⟨p.x + (q.x - p.x) * t, p.y + (q.y - p.y) * t⟩

def middle (p q : Spot) : Spot := p.toward q 0.5

def transpose (p : Spot) : Spot := ⟨p.y, p.x⟩

end Spot

inductive PenStep where
  | moveTo (p : Spot)
  | lineTo (p : Spot)
  | quadTo (c p : Spot)
  | cubicTo (c c' p : Spot)
  | close

namespace PenStep

def spots : PenStep → List Spot
  | moveTo p => [p]
  | lineTo p => [p]
  | quadTo c p => [c, p]
  | cubicTo c c' p => [c, c', p]
  | close => []

def map (f : Spot → Spot) : PenStep → PenStep
  | moveTo p => moveTo (f p)
  | lineTo p => lineTo (f p)
  | quadTo c p => quadTo (f c) (f p)
  | cubicTo c c' p => cubicTo (f c) (f c') (f p)
  | close => close

/-- The spots of an outline. A move right behind another one replaces it. -/
def marks : List PenStep → List Spot
  | moveTo _ :: moveTo p :: rest => marks (moveTo p :: rest)
  | step :: rest => step.spots ++ marks rest
  | [] => []

end PenStep

structure Box where
  minX : Float32
  minY : Float32
  maxX : Float32
  maxY : Float32

namespace Box

def extend (b : Box) (p : Spot) : Box :=
  ⟨if p.x < b.minX then p.x else b.minX, if p.y < b.minY then p.y else b.minY,
    if b.maxX < p.x then p.x else b.maxX, if b.maxY < p.y then p.y else b.maxY⟩

def around? : List Spot → Option Box
  | [] => none
  | p :: ps => some (ps.foldl extend ⟨p.x, p.y, p.x, p.y⟩)

def width (b : Box) : Float32 := b.maxX - b.minX

def height (b : Box) : Float32 := b.maxY - b.minY

end Box

end Galley
