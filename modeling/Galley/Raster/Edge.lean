import Galley.Raster.Segment

/-! Edges: segments as they cross the middles of rows. Places have sixteen fractional bits and change by the
same amount from row to row; a curve is flattened into straight pieces by forward differences. -/

namespace Galley.Raster

structure Piece where
  x : Int
  slope : Int
  first : Int
  last : Int
  winding : Int

inductive Edge where
  | straight (piece : Piece)
  | curved (piece : Piece) (later : List Piece)

structure GridSpot where
  x : Int
  y : Int

def power (k : Nat) : Int := (1 <<< k : Nat)

def toGrid (shift : Nat) (v : Float32) : Int :=
  (v * Float32.ofInt (64 * power shift)).toInt32.toInt

def GridSpot.ofSpot (shift : Nat) (p : Spot) : GridSpot := ⟨toGrid shift p.x, toGrid shift p.y⟩

def rowFrom (y : Int) : Int := (y + 32) / 64

namespace Piece

def toWord (n : Int) : Int := max (-0x80000000) (min n 0x7FFFFFFF)

def down? (p q : GridSpot) (winding : Int) : Option Piece :=
  let first := rowFrom p.y
  let last := rowFrom q.y - 1
  if last < first then none else
  let slope := toWord (((q.x - p.x) * 0x10000).tdiv (q.y - p.y))
  let drop := first * 64 + 32 - p.y
  some ⟨(p.x + slope * drop / 0x10000) * 1024, slope, first, last, winding⟩

def chain (winding : Int) : List (Int × Int) → List Piece
  | p :: q :: rest =>
    let spot (p : Int × Int) : GridSpot := ⟨p.1 / 1024, p.2 / 1024⟩
    (down? (spot p) (spot q) winding).toList ++ chain winding (q :: rest)
  | _ => []

/-- Two upright pieces at one place, where they make at most one: `some none` if one takes the other back,
`none` if they do not fit together. -/
def join (a b : Piece) : Option (Option Piece) :=
  if a.slope ≠ 0 ∨ a.x ≠ b.x then none
  else if a.winding = b.winding then
    if b.last + 1 = a.first then some (some { a with first := b.first })
    else if b.first = a.last + 1 then some (some { a with last := b.last })
    else none
  else if b.first = a.first then
    if b.last = a.last then some none
    else if b.last < a.last then some (some { a with first := b.last + 1 })
    else some (some { a with first := a.last + 1, last := b.last, winding := b.winding })
  else if b.last = a.last then
    if b.first > a.first then some (some { a with last := b.first - 1 })
    else some (some { a with first := b.first, last := a.first - 1, winding := b.winding })
  else none

end Piece

/-- How often a curve is halved that strays this far from its chord, with accuracy for `2 ^ coarse` rows to a
pixel. -/
def halvings (dx dy : Int) (coarse : Nat) : Nat :=
  let (dx, dy) := (dx.natAbs, dy.natAbs)
  let distance := if dx > dy then dx + dy / 2 else dy + dx / 2
  let steps := (distance + 16) >>> (3 + coarse)
  if steps = 0 then 0 else (steps.log2 + 1) / 2

def maxHalvings : Nat := 6

def quadPlaces (p c q : Int) (shift : Nat) : List Int :=
  let bend := (p - c - c + q) * 512
  let speed := (c - p) * 1024 + bend / power shift
  let rec go (n : Nat) (place speed : Int) : List Int :=
    match n with
    | 0 => [q * 1024]
    | n + 1 => place :: go n (place + speed / power (shift - 1)) (speed + bend / power (shift - 1))
  go (1 <<< shift) (p * 1024) speed

def cubicPlaces (p c c' q : Int) (shift : Nat) : List Int :=
  let up := if shift < 4 then 10 - shift else 6
  let down := shift - 4
  let b := 3 * (c - p) * power up
  let c₂ := 3 * (p - c - c + c') * power up
  let d := (q + 3 * (c - c') - p) * power up
  let twist := 3 * d / power (shift - 1)
  let rec go (n : Nat) (place speed bend : Int) : List Int :=
    match n with
    | 0 => [q * 1024]
    | n + 1 => place :: go n (place + speed / power down) (speed + bend / power shift) (bend + twist)
  go (1 <<< shift) (p * 1024) (b + c₂ / power shift + d / power (2 * shift)) (2 * c₂ + twist)

/-- Heights of which none is above the one before, which rounding may have done. -/
def neverUp (before : Int) : List Int → List Int
  | [] => []
  | y :: ys =>
    let y := max before y
    y :: neverUp y ys

namespace Edge

def piece : Edge → Piece
  | straight p => p
  | curved p _ => p

def ofPieces? : List Piece → Option Edge
  | [] => none
  | p :: later => some (curved p later)

def ofQuad? (shift : Nat) (k : Quad) : Option Edge :=
  let spot := GridSpot.ofSpot shift
  let (p, c, q) := (spot k.p, spot k.c, spot k.q)
  let (p, q, winding) := if p.y > q.y then (q, p, -1) else (p, q, 1)
  if rowFrom p.y = rowFrom q.y then none else
  let stray (p c q : Int) : Int := (2 * c - p - q) / 4
  let n := halvings (stray p.x c.x q.x) (stray p.y c.y q.y) shift
  let n := max 1 (min n maxHalvings)
  ofPieces? (Piece.chain winding ((quadPlaces p.x c.x q.x n).zip (quadPlaces p.y c.y q.y n)))

def ofCubic? (shift : Nat) (k : Cubic) : Option Edge :=
  let spot := GridSpot.ofSpot shift
  let (p, c, c', q) := (spot k.p, spot k.c, spot k.c', spot k.q)
  let (p, c, c', q, winding) := if p.y > q.y then (q, c', c, p, -1) else (p, c, c', q, 1)
  if rowFrom p.y = rowFrom q.y then none else
  let stray (a b c d : Int) : Int :=
    let third := (8 * a - 15 * b + 6 * c + d) * 19 / 512
    let twoThirds := (a + 6 * b - 15 * c + 8 * d) * 19 / 512
    max third.natAbs twoThirds.natAbs
  let n := min (halvings (stray p.x c.x c'.x q.x) (stray p.y c.y c'.y q.y) 2 + 1) maxHalvings
  ofPieces? (Piece.chain winding
    ((cubicPlaces p.x c.x c'.x q.x n).zip (neverUp (p.y * 1024) (cubicPlaces p.y c.y c'.y q.y n))))

def addStraight (edges : List Edge) (p : Piece) : List Edge :=
  match edges with
  | straight q :: rest =>
    if p.slope ≠ 0 then straight p :: edges else
    match q.join p with
    | none => straight p :: edges
    | some none => rest
    | some (some joined) => straight joined :: rest
  | _ => straight p :: edges

def add (shift : Nat) (edges : List Edge) : Segment → List Edge
  | .line p q =>
    let (p, q) := (GridSpot.ofSpot shift p, GridSpot.ofSpot shift q)
    match if p.y > q.y then Piece.down? q p (-1) else Piece.down? p q 1 with
    | some piece => addStraight edges piece
    | none => edges
  | .quad k => (ofQuad? shift k).toList ++ edges
  | .cubic k => (ofCubic? shift k).toList ++ edges

def ofSegments (shift : Nat) (segments : List Segment) : List Edge :=
  (segments.foldl (add shift) []).reverse

def advance? (y : Int) : Edge → Option Edge
  | straight p => if p.last = y then none else some (straight { p with x := p.x + p.slope })
  | curved p later =>
    if p.last = y then ofPieces? later else some (curved { p with x := p.x + p.slope } later)

end Edge

end Galley.Raster
