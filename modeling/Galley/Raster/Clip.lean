import Galley.Raster.Segment

/-! Clipping of segments to a box. What lies above or below is dropped; what lies to the left or right is
replaced by an upright line on that side, so that every row is wound as before. -/

namespace Galley.Raster

def pin (v a b : Float) : Float :=
  let (low, high) := if b < a then (b, a) else (a, b)
  if v < low then low else if v > high then high else v

/-- Differences up to this count as none. -/
def negligible (x : Float32) : Bool := x.abs <= 1 / 4096

def crossing (p q : Spot) (y : Float32) : Float32 :=
  if negligible (q.y - p.y) then (p.x + q.x) * 0.5 else
  let (x₀, y₀, x₁, y₁) := (p.x.toFloat, p.y.toFloat, q.x.toFloat, q.y.toFloat)
  (pin (x₀ + (y.toFloat - y₀) * (x₁ - x₀) / (y₁ - y₀)) x₀ x₁).toFloat32

def notAbove (y : Float32) (p : Spot) : Spot := if p.y < y then { p with y } else p

def notBelow (y : Float32) (p : Spot) : Spot := if p.y > y then { p with y } else p

def notLeftOf (x : Float32) (p : Spot) : Spot := if p.x < x then { p with x } else p

def notRightOf (x : Float32) (p : Spot) : Spot := if p.x > x then { p with x } else p

namespace Segment

def upright (x y y' : Float32) (reverse : Bool) : Segment :=
  if reverse then .line ⟨x, y'⟩ ⟨x, y⟩ else .line ⟨x, y⟩ ⟨x, y'⟩

def chain : List Spot → List Segment
  | p :: q :: rest => .line p q :: chain (q :: rest)
  | _ => []

def endInside (b : Box) (p q spot : Spot) : Spot :=
  if spot.y < b.minY then ⟨crossing p q b.minY, b.minY⟩
  else if spot.y > b.maxY then ⟨crossing p q b.maxY, b.maxY⟩
  else spot

def clipLine (b : Box) (p q : Spot) : List Segment :=
  let (top, bottom) := if p.y < q.y then (p.y, q.y) else (q.y, p.y)
  if bottom <= b.minY || top >= b.maxY then [] else
  let forward := p.x < q.x
  let p := endInside b p q p
  let q := endInside b p q q
  let (l, r) := if forward then (p, q) else (q, p)
  if r.x <= b.minX then [.line ⟨b.minX, p.y⟩ ⟨b.minX, q.y⟩]
  else if l.x >= b.maxX then [.line ⟨b.maxX, p.y⟩ ⟨b.maxX, q.y⟩]
  else
    let side (x : Float32) : Spot := ⟨x, crossing p.transpose q.transpose x⟩
    let first := if l.x < b.minX then [⟨b.minX, l.y⟩, side b.minX] else [l]
    let last := if r.x > b.maxX then [side b.maxX, ⟨b.maxX, r.y⟩] else [r]
    let spots := first ++ last
    chain (if forward then spots else spots.reverse)

end Segment

namespace Quad

def parameter? (k : Quad) (y : Float32) : Option Float32 :=
  (unitRoots (k.p.y - k.c.y - k.c.y + k.q.y) (2 * (k.c.y - k.p.y)) (k.p.y - y)).head?

def inside (k : Quad) (b : Box) : Quad :=
  let k :=
    if k.p.y < b.minY then
      match k.parameter? b.minY with
      | some t =>
        let (_, r) := k.cut t
        ⟨{ r.p with y := b.minY }, notAbove b.minY r.c, k.q⟩
      | none => ⟨notAbove b.minY k.p, notAbove b.minY k.c, notAbove b.minY k.q⟩
    else k
  if k.q.y > b.maxY then
    match k.parameter? b.maxY with
    | some t =>
      let (l, _) := k.cut t
      ⟨k.p, notBelow b.maxY l.c, { l.q with y := b.maxY }⟩
    | none => ⟨notBelow b.maxY k.p, notBelow b.maxY k.c, notBelow b.maxY k.q⟩
  else k

def clipMonotone (b : Box) (k : Quad) : List Segment :=
  let reverse := k.p.y > k.q.y
  let k := if reverse then k.reverse else k
  if k.q.y <= b.minY || k.p.y >= b.maxY then [] else
  let k := k.inside b
  let (k, reverse) := if k.p.x > k.q.x then (k.reverse, !reverse) else (k, reverse)
  if k.q.x <= b.minX then [.upright b.minX k.p.y k.q.y reverse]
  else if k.p.x >= b.maxX then [.upright b.maxX k.p.y k.q.y reverse]
  else
    let oriented (k : Quad) : Segment := .quad (if reverse then k.reverse else k)
    let cutRight (k : Quad) : List Segment :=
      if k.q.x > b.maxX then
        match k.transpose.parameter? b.maxX with
        | some t =>
          let (l, r) := k.cut t
          [oriented ⟨l.p, notRightOf b.maxX l.c, { l.q with x := b.maxX }⟩,
            .upright b.maxX l.q.y r.q.y reverse]
        | none => [oriented ⟨k.p, notRightOf b.maxX k.c, notRightOf b.maxX k.q⟩]
      else [oriented k]
    if k.p.x < b.minX then
      match k.transpose.parameter? b.minX with
      | some t =>
        let (l, r) := k.cut t
        .upright b.minX l.p.y l.q.y reverse ::
          cutRight ⟨{ r.p with x := b.minX }, notLeftOf b.minX r.c, k.q⟩
      | none => [.upright b.minX k.p.y k.q.y reverse]
    else cutRight k

def clip (b : Box) (k : Quad) : List Segment :=
  match Box.around? [k.p, k.c, k.q] with
  | none => []
  | some around =>
    if around.minY >= b.maxY || around.maxY <= b.minY then []
    else (k.monotoneY.flatMap monotoneX).flatMap (clipMonotone b)

end Quad

namespace Cubic

/-- The parameter where a rising cubic in one coordinate has a value, by sixty-four halvings. -/
def parameter (a b c d value : Float) : Float :=
  let at' (t : Float) : Float :=
    let s := 1 - t
    s * s * s * a + 3 * s * s * t * b + 3 * s * t * t * c + t * t * t * d
  let halve (range : Float × Float) (_ : Nat) : Float × Float :=
    let middle := (range.1 + range.2) / 2
    if at' middle < value then (middle, range.2) else (range.1, middle)
  ((List.range 64).foldl halve (0, 1)).2

def cutAtHeight (k : Cubic) (y : Float32) : Cubic × Cubic :=
  let t := parameter k.p.y.toFloat k.c.y.toFloat k.c'.y.toFloat k.q.y.toFloat y.toFloat
  let toward (p q : Float × Float) : Float × Float :=
    (p.1 + (q.1 - p.1) * t, p.2 + (q.2 - p.2) * t)
  let wide (p : Spot) : Float × Float := (p.x.toFloat, p.y.toFloat)
  let spot (p : Float × Float) : Spot := ⟨p.1.toFloat32, p.2.toFloat32⟩
  let l := toward (wide k.p) (wide k.c)
  let m := toward (wide k.c) (wide k.c')
  let r := toward (wide k.c') (wide k.q)
  let lm := toward l m
  let mr := toward m r
  let s := toward lm mr
  (⟨k.p, spot l, spot lm, spot s⟩, ⟨spot s, spot mr, spot r, k.q⟩)

def cutAtPlace (k : Cubic) (x : Float32) : Cubic × Cubic :=
  let (l, r) := k.transpose.cutAtHeight x
  (l.transpose, r.transpose)

def inside (k : Cubic) (b : Box) : Cubic :=
  let k :=
    if k.p.y < b.minY then
      let (_, r) := k.cutAtHeight b.minY
      ⟨{ r.p with y := b.minY }, notAbove b.minY r.c, r.c', k.q⟩
    else k
  if k.q.y > b.maxY then
    let (l, _) := k.cutAtHeight b.maxY
    ⟨k.p, notBelow b.maxY l.c, notBelow b.maxY l.c', { l.q with y := b.maxY }⟩
  else k

def clipMonotone (b : Box) (k : Cubic) : List Segment :=
  let reverse := k.p.y > k.q.y
  let k := if reverse then k.reverse else k
  if k.q.y <= b.minY || k.p.y >= b.maxY then [] else
  let k := k.inside b
  let (k, reverse) := if k.p.x > k.q.x then (k.reverse, !reverse) else (k, reverse)
  if k.q.x <= b.minX then [.upright b.minX k.p.y k.q.y reverse]
  else if k.p.x >= b.maxX then [.upright b.maxX k.p.y k.q.y reverse]
  else
    let oriented (k : Cubic) : Segment := .cubic (if reverse then k.reverse else k)
    let cutRight (k : Cubic) : List Segment :=
      if k.q.x > b.maxX then
        let (l, r) := k.cutAtPlace b.maxX
        [oriented ⟨l.p, notRightOf b.maxX l.c, notRightOf b.maxX l.c', { l.q with x := b.maxX }⟩,
          .upright b.maxX l.q.y r.q.y reverse]
      else [oriented k]
    if k.p.x < b.minX then
      let (l, r) := k.cutAtPlace b.minX
      .upright b.minX l.p.y l.q.y reverse ::
        cutRight ⟨{ r.p with x := b.minX }, notLeftOf b.minX r.c, r.c', k.q⟩
    else cutRight k

/-- Beyond this distance single precision cannot cut a cubic, and its chord stands for it. -/
def limit : Float32 := 4194304

def clip (b : Box) (k : Cubic) : List Segment :=
  match Box.around? [k.p, k.c, k.c', k.q] with
  | none => []
  | some around =>
    if around.minY >= b.maxY || around.maxY <= b.minY then []
    else if around.minX < -limit || around.minY < -limit || limit < around.maxX || limit < around.maxY then
      Segment.clipLine b k.p k.q
    else (k.monotoneY.flatMap monotoneX).flatMap (clipMonotone b)

end Cubic

namespace Segment

def clip (b : Box) : Segment → List Segment
  | line p q => clipLine b p q
  | quad k => k.clip b
  | cubic k => k.clip b

def monotone : Segment → List Segment
  | line p q => [.line p q]
  | quad k => k.monotoneY.map .quad
  | cubic k => k.monotoneY.map .cubic

end Segment

end Galley.Raster
