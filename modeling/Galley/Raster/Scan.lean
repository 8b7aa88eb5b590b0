import Galley.Raster.Edge

/-! Sweeping edges row by row. Between the edges of a row, a span is inside wherever the windings passed so
far do not cancel. -/

namespace Galley.Raster

structure Span where
  y : Int
  start : Int
  stop : Int
  deriving DecidableEq

namespace Edge

def x (e : Edge) : Int := e.piece.x

def first (e : Edge) : Int := e.piece.first

def column (e : Edge) : Int := (e.x + 0x8000) / 0x10000

/-- Inserts an edge into edges kept from right to left, to the right of those at the same place. -/
def insertRight (e : Edge) : List Edge → List Edge
  | [] => [e]
  | d :: ds => if d.x > e.x then d :: insertRight e ds else e :: d :: ds

def merge (old new : List Edge) : List Edge :=
  match new, old with
  | [], _ => old
  | _, [] => new
  | n :: ns, o :: os => if o.x < n.x then o :: merge os (n :: ns) else n :: merge (o :: os) ns
termination_by old.length + new.length

/-- Takes in the edges that start in a row. The first of them goes to the right of those at its place. -/
def enter (active new : List Edge) : List Edge :=
  match new with
  | [] => active
  | n :: ns =>
    let right := (active.reverse.takeWhile fun e => e.x > n.x).reverse
    active.take (active.length - right.length) ++ n :: merge right ns

end Edge

structure Row where
  y : Int
  winding : Int := 0
  start : Int := 0
  spans : List Span := []
  next : List Edge := []

namespace Row

def addSpan (r : Row) (stop : Int) : Row :=
  if r.start < stop then { r with spans := ⟨r.y, r.start, stop⟩ :: r.spans } else r

def pass (r : Row) (e : Edge) : Row :=
  let column := e.column
  let r := if r.winding = 0 then { r with start := column } else r
  let r := { r with winding := r.winding + e.piece.winding }
  let r := if r.winding = 0 then r.addSpan column else r
  match e.advance? r.y with
  | some e => { r with next := e.insertRight r.next }
  | none => r

def finish (r : Row) (right : Int) : Row := if r.winding = 0 then r else r.addSpan right

end Row

/-- Sweeps `rows` rows from `y` on, with edges inside the row from left to right, and edges that start later
in the order of their starts. -/
def sweep (right : Int) : Nat → Int → List Edge → List Edge → List Span
  | 0, _, _, _ => []
  | rows + 1, y, active, later =>
    let active := Edge.enter active (later.takeWhile fun e => e.first ≤ y)
    let row := (active.foldl Row.pass { y }).finish right
    row.spans.reverse ++ sweep right rows (y + 1) row.next.reverse (later.dropWhile fun e => e.first ≤ y)

def spansBetween (edges : List Edge) (top bottom right : Int) : List Span :=
  if edges.length < 2 then [] else
  let before (e d : Edge) : Bool := e.first < d.first || (e.first == d.first && e.x ≤ d.x)
  sweep right (bottom - top).toNat top [] (edges.mergeSort before)

end Galley.Raster
