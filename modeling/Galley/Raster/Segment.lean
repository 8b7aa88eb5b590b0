import Galley.Outline

/-! Segments of closed contours, and how curves are cut into parts that do not turn. -/

namespace Galley.Raster

structure Quad where
  p : Spot
  c : Spot
  q : Spot

structure Cubic where
  p : Spot
  c : Spot
  c' : Spot
  q : Spot

inductive Segment where
  | line (p q : Spot)
  | quad (k : Quad)
  | cubic (k : Cubic)

def unitRatio? (num den : Float32) : Option Float32 :=
  let (num, den) := if num < 0 then (-num, -den) else (num, den)
  if den == 0 || num == 0 || num >= den then none else
  let t := num / den
  if 0 < t && t < 1 then some t else none

def unitRoots (a b c : Float32) : List Float32 :=
  if a == 0 then (unitRatio? (-c) b).toList else
  let d := b.toFloat * b.toFloat - 4 * a.toFloat * c.toFloat
  if d < 0 then [] else
  let r := d.sqrt.toFloat32
  let q := if b < 0 then -(b - r) / 2 else -(b + r) / 2
  match unitRatio? q a, unitRatio? c q with
  | some t, some u => if t == u then [t] else if u < t then [u, t] else [t, u]
  | some t, none => [t]
  | none, some u => [u]
  | none, none => []

namespace Quad

def transpose (k : Quad) : Quad := ⟨k.p.transpose, k.c.transpose, k.q.transpose⟩

def reverse (k : Quad) : Quad := ⟨k.q, k.c, k.p⟩

def cut (k : Quad) (t : Float32) : Quad × Quad :=
  let l := k.p.toward k.c t
  let r := k.c.toward k.q t
  let m := l.toward r t
  (⟨k.p, l, m⟩, ⟨m, r, k.q⟩)

def turns (a b c : Float32) : Bool :=
  let ab := a - b
  let bc := b - c
  ab == 0 || (if ab < 0 then -bc else bc) < 0

/-- Parts that go only up or only down. Where no parameter of the turn can be found, the control spot is moved
to the height of the nearer end. -/
def monotoneY (k : Quad) : List Quad :=
  let (a, b, c) := (k.p.y, k.c.y, k.q.y)
  if !turns a b c then [k] else
  match unitRatio? (a - b) (a - b - b + c) with
  | some t =>
    let (l, r) := k.cut t
    let y := l.q.y
    [{ l with c := { l.c with y } }, { r with c := { r.c with y } }]
  | none =>
    let y := if (a - b).abs < (b - c).abs then a else c
    [{ k with c := { k.c with y } }]

def monotoneX (k : Quad) : List Quad := k.transpose.monotoneY.map transpose

end Quad

namespace Cubic

def transpose (k : Cubic) : Cubic := ⟨k.p.transpose, k.c.transpose, k.c'.transpose, k.q.transpose⟩

def reverse (k : Cubic) : Cubic := ⟨k.q, k.c', k.c, k.p⟩

def cut (k : Cubic) (t : Float32) : Cubic × Cubic :=
  let l := k.p.toward k.c t
  let m := k.c.toward k.c' t
  let r := k.c'.toward k.q t
  let lm := l.toward m t
  let mr := m.toward r t
  let s := lm.toward mr t
  (⟨k.p, l, lm, s⟩, ⟨s, mr, r, k.q⟩)

def cutAt (k : Cubic) : List Float32 → List Cubic
  | [] => [k]
  | [t] => let (l, r) := k.cut t; [l, r]
  | t :: u :: _ =>
    let (l, r) := k.cut t
    match unitRatio? (u - t) (1 - t) with
    | some v => let (m, r) := r.cut v; [l, m, r]
    | none => [l, r, ⟨k.q, k.q, k.q, k.q⟩]

def levelJoints (k : Cubic) : List Cubic → List Cubic
  | [] => [k]
  | l :: rest =>
    let y := k.q.y
    { k with c' := { k.c' with y } } :: levelJoints { l with c := { l.c with y } } rest

def monotoneY (k : Cubic) : List Cubic :=
  let (a, b, c, d) := (k.p.y, k.c.y, k.c'.y, k.q.y)
  match k.cutAt (unitRoots (d - a + 3 * (b - c)) (2 * (a - b - b + c)) (b - a)) with
  | [] => []
  | part :: parts => part.levelJoints parts

def monotoneX (k : Cubic) : List Cubic := k.transpose.monotoneY.map transpose

end Cubic

namespace Segment

structure Pen where
  start : Spot := ⟨0, 0⟩
  spot : Spot := ⟨0, 0⟩
  drawn : Bool := false

def Pen.closing (k : Pen) : List Segment := if k.drawn then [.line k.spot k.start] else []

def Pen.segments (k : Pen) : List PenStep → List Segment
  | [] => k.closing
  | .moveTo p :: steps => k.closing ++ segments ⟨p, p, false⟩ steps
  | .lineTo p :: steps => .line k.spot p :: segments ⟨k.start, p, true⟩ steps
  | .quadTo c p :: steps => .quad ⟨k.spot, c, p⟩ :: segments ⟨k.start, p, true⟩ steps
  | .cubicTo c c' p :: steps => .cubic ⟨k.spot, c, c', p⟩ :: segments ⟨k.start, p, true⟩ steps
  | .close :: steps => k.closing ++ segments ⟨k.start, k.start, false⟩ steps

def ofSteps (steps : List PenStep) : List Segment := Pen.segments {} steps

end Segment

end Galley.Raster
