import Galley.Sfnt.Cmap
import Galley.Sfnt.Outline

/-! Outlines made of cubic curves. Each glyph is a small program for a stack machine. -/

namespace Galley.Sfnt

open Bytes

abbrev Index := List ByteArray

def wide? (b : ByteArray) (pos width : Nat) : Option Nat :=
  (List.range width).foldlM (fun n k => (u8? b (pos + k)).map fun x => 256 * n + x.toNat) 0

def readIndex? (b : ByteArray) (pos : Nat) : Option (Index × Nat) := do
  let count := (← u16? b pos).toNat
  if count = 0 then return ([], pos + 2)
  let width := (← u8? b (pos + 2)).toNat
  if width = 0 ∨ 4 < width then none else
  let offset? (k : Nat) := wide? b (pos + 3 + k * width) width
  let base := pos + 3 + (count + 1) * width - 1
  let stop ← offset? count
  if stop = 0 then return ([], base + 1)
  if b.size < base + stop then none else
  let entries := (List.range count).map fun k =>
    match offset? k, offset? (k + 1) with
    | some i, some j => if 0 < i ∧ i ≤ j then (slice? b (base + i) (j - i)).getD .empty else .empty
    | _, _ => .empty
  return (entries, base + stop)

structure DictEntry where
  operator : Nat
  operands : List Int

def skipDecimal (b : ByteArray) : Nat → Nat → Nat
  | 0, pos => pos
  | fuel + 1, pos =>
    match u8? b pos with
    | none => pos
    | some x => if x &&& 0x0F = 0x0F ∨ x >>> 4 = 0x0F then pos + 1 else skipDecimal b fuel (pos + 1)

/-- Reads a dictionary. Decimal operands count as zero: no entry that matters here has one. -/
def readDict (b : ByteArray) : Nat → Nat → List Int → List DictEntry
  | 0, _, _ => []
  | fuel + 1, pos, operands =>
    match u8? b pos with
    | none => []
    | some byte =>
      let x := byte.toNat
      let next (n : Nat) : Int := ((u8? b (pos + n)).getD 0).toNat
      if x = 12 then ⟨1200 + (next 1).toNat, operands.reverse⟩ :: readDict b fuel (pos + 2) []
      else if x ≤ 21 then ⟨x, operands.reverse⟩ :: readDict b fuel (pos + 1) []
      else if x = 28 then
        readDict b fuel (pos + 3) ((((i16? b (pos + 1)).map Int16.toInt).getD 0) :: operands)
      else if x = 29 then
        readDict b fuel (pos + 5) ((((u32? b (pos + 1)).map fun n => n.toInt32.toInt).getD 0) :: operands)
      else if x = 30 then readDict b fuel (skipDecimal b b.size (pos + 1)) (0 :: operands)
      else if x < 32 ∨ x = 255 then []
      else if x ≤ 246 then readDict b fuel (pos + 1) ((x - 139 : Int) :: operands)
      else if x ≤ 250 then readDict b fuel (pos + 2) (((x - 247 : Int) * 256 + next 1 + 108) :: operands)
      else readDict b fuel (pos + 2) ((-(x - 251 : Int) * 256 - next 1 - 108) :: operands)

def operands? (entries : List DictEntry) (operator : Nat) : Option (List Int) :=
  (entries.find? fun e => e.operator == operator).map DictEntry.operands

def offsetOperand? (entries : List DictEntry) (operator : Nat) : Option Nat := do
  match ← operands? entries operator with
  | [n] => if n < 0 then none else some n.toNat
  | _ => none

structure CffTable where
  glyphs : Index
  globals : Index
  locals : Index

namespace CffTable

def readLocals? (b : ByteArray) (top : List DictEntry) : Option Index := do
  match operands? top 18 with
  | some [size, start] =>
    let dict ← slice? b start.toNat size.toNat
    match offsetOperand? (readDict dict dict.size 0 []) 19 with
    | some offset => return (← readIndex? b (start.toNat + offset)).1
    | none => return []
  | _ => return []

def read? (b : ByteArray) : Option CffTable := do
  if (← u8? b 0) ≠ 1 then none else
  let (_, pos) ← readIndex? b (max 4 (← u8? b 2).toNat)
  let (dicts, pos) ← readIndex? b pos
  let dict ← dicts.head?
  let top := readDict dict dict.size 0 []
  let (_, pos) ← readIndex? b pos
  let (globals, _) ← readIndex? b pos
  let start ← offsetOperand? top 17
  if start = 0 then none else
  let (glyphs, _) ← readIndex? b start
  if glyphs.isEmpty then none else
  return ⟨glyphs, globals, ← readLocals? b top⟩

end CffTable

structure Drawing where
  operands : List Float32 := []
  pen : Spot := ⟨0, 0⟩
  steps : List PenStep := []
  started : Bool := false
  contourOpen : Bool := false
  widthSeen : Bool := false
  stems : Nat := 0
  ended : Bool := false

namespace Drawing

def maxOperands : Nat := 48

def push (d : Drawing) (x : Float32) : Option Drawing :=
  if d.operands.length < maxOperands then some { d with operands := x :: d.operands } else none

def arguments (d : Drawing) : List Float32 := d.operands.reverse

def clear (d : Drawing) : Drawing := { d with operands := [] }

def closeContour (d : Drawing) : Drawing :=
  if d.contourOpen then { d with steps := .close :: d.steps } else d

def moveBy (d : Drawing) (dx dy : Float32) : Drawing :=
  let d := d.closeContour
  let pen : Spot := ⟨d.pen.x + dx, d.pen.y + dy⟩
  { d with pen, steps := .moveTo pen :: d.steps, started := true, contourOpen := true }.clear

def lineBy (d : Drawing) (dx dy : Float32) : Drawing :=
  let pen : Spot := ⟨d.pen.x + dx, d.pen.y + dy⟩
  { d with pen, steps := .lineTo pen :: d.steps }

def curveBy (d : Drawing) (dx₁ dy₁ dx₂ dy₂ dx₃ dy₃ : Float32) : Drawing :=
  let c : Spot := ⟨d.pen.x + dx₁, d.pen.y + dy₁⟩
  let c' : Spot := ⟨c.x + dx₂, c.y + dy₂⟩
  let pen : Spot := ⟨c'.x + dx₃, c'.y + dy₃⟩
  { d with pen, steps := .cubicTo c c' pen :: d.steps }

def lines (d : Drawing) : List Float32 → Option Drawing
  | [] => some d
  | dx :: dy :: rest => (d.lineBy dx dy).lines rest
  | _ => none

def alternatingLines (d : Drawing) (horizontal : Bool) : List Float32 → Drawing
  | [] => d
  | x :: rest => (if horizontal then d.lineBy x 0 else d.lineBy 0 x).alternatingLines (!horizontal) rest

def curves (d : Drawing) : List Float32 → Option Drawing
  | [] => some d
  | a :: b :: c :: e :: f :: g :: rest => (d.curveBy a b c e f g).curves rest
  | _ => none

def curvesThenLine (d : Drawing) (xs : List Float32) : Option Drawing := do
  if xs.length < 8 then none else
  (← d.curves (xs.take (xs.length - 2))).lines (xs.drop (xs.length - 2))

def linesThenCurve (d : Drawing) (xs : List Float32) : Option Drawing := do
  if xs.length < 8 then none else
  (← d.lines (xs.take (xs.length - 6))).curves (xs.drop (xs.length - 6))

/-- Curves that begin and end horizontally; `dy` shifts the start of the first one. -/
def flatCurves (d : Drawing) (dy : Float32) : List Float32 → Option Drawing
  | [] => some d
  | a :: b :: c :: e :: rest => (d.curveBy a dy b c e 0).flatCurves 0 rest
  | _ => none

def steepCurves (d : Drawing) (dx : Float32) : List Float32 → Option Drawing
  | [] => some d
  | a :: b :: c :: e :: rest => (d.curveBy dx a b c 0 e).steepCurves 0 rest
  | _ => none

/-- Curves that begin horizontally and end vertically or the other way round, by turns. The last one may
end at any angle. -/
def alternatingCurves (d : Drawing) (horizontal : Bool) : List Float32 → Option Drawing
  | [a, b, c, e, f] => some (if horizontal then d.curveBy a 0 b c f e else d.curveBy 0 a b c e f)
  | a :: b :: c :: e :: rest =>
    let d := if horizontal then d.curveBy a 0 b c 0 e else d.curveBy 0 a b c e 0
    if rest.isEmpty then some d else d.alternatingCurves (!horizontal) rest
  | _ => none

def flex (d : Drawing) : List Float32 → Option Drawing
  | [a, b, c, e, f, g, h, i, j, k, l, m, _] => some ((d.curveBy a b c e f g).curveBy h i j k l m)
  | _ => none

def flatFlex (d : Drawing) : List Float32 → Option Drawing
  | [a, b, c, e, f, g, h] => some ((d.curveBy a 0 b c e 0).curveBy f 0 g (-c) h 0)
  | _ => none

def flatFlexEnds (d : Drawing) : List Float32 → Option Drawing
  | [a, b, c, e, f, g, h, i, j] =>
    let d' := (d.curveBy a b c e f 0).curveBy g 0 h i j 0
    -- the end is level with the start
    match d'.steps with
    | .cubicTo p q r :: rest =>
      let pen : Spot := ⟨r.x, d.pen.y⟩
      some { d' with pen, steps := .cubicTo p q pen :: rest }
    | _ => none
  | _ => none

def freeFlex (d : Drawing) : List Float32 → Option Drawing
  | [a, b, c, e, f, g, h, i, j, k, last] =>
    let first := d.curveBy a b c e f g
    let p : Spot := ⟨first.pen.x + h, first.pen.y + i⟩
    let q : Spot := ⟨p.x + j, p.y + k⟩
    let pen : Spot :=
      if (q.y - d.pen.y).abs < (q.x - d.pen.x).abs then ⟨q.x + last, d.pen.y⟩ else ⟨d.pen.x, q.y + last⟩
    some { first with pen, steps := .cubicTo p q pen :: first.steps }
  | _ => none

/-- Stem hints come in pairs; a number too many is the glyph's width. -/
def hint (d : Drawing) : Drawing :=
  let odd := d.operands.length % 2 == 1
  { d with stems := d.stems + d.operands.length / 2, widthSeen := d.widthSeen || odd }.clear

def whenStarted (d : Drawing) (draw : Drawing → List Float32 → Option Drawing) : Option Drawing :=
  if d.started then (draw d d.arguments).map clear else none

/-- A move whose arguments may follow the glyph's width. -/
def move (d : Drawing) (count : Nat) (offset : List Float32 → Float32 × Float32) : Option Drawing :=
  let xs := d.arguments
  if xs.length = count then some (d.moveBy (offset xs).1 (offset xs).2)
  else if xs.length = count + 1 then
    some ({ d with widthSeen := true }.moveBy (offset (xs.drop 1)).1 (offset (xs.drop 1)).2)
  else none

def firstTwo (xs : List Float32) : Float32 × Float32 := (xs.headD 0, (xs.drop 1).headD 0)

def firstLevel (xs : List Float32) : Float32 × Float32 := (xs.headD 0, 0)

def firstUpright (xs : List Float32) : Float32 × Float32 := (0, xs.headD 0)

def apply (d : Drawing) (operator : Nat) : Option Drawing :=
  match operator with
  | 1 | 3 | 18 | 23 => some d.hint
  | 4 => d.move 1 firstUpright
  | 5 => d.whenStarted lines
  | 6 => d.whenStarted fun d xs => if xs.isEmpty then none else some (d.alternatingLines true xs)
  | 7 => d.whenStarted fun d xs => if xs.isEmpty then none else some (d.alternatingLines false xs)
  | 8 => d.whenStarted curves
  | 21 => d.move 2 firstTwo
  | 22 => d.move 1 firstLevel
  | 24 => d.whenStarted curvesThenLine
  | 25 => d.whenStarted linesThenCurve
  | 26 => d.whenStarted fun d xs =>
    if xs.isEmpty then none
    else if xs.length % 2 = 1 then d.steepCurves (xs.headD 0) (xs.drop 1)
    else d.steepCurves 0 xs
  | 27 => d.whenStarted fun d xs =>
    if xs.isEmpty then none
    else if xs.length % 2 = 1 then d.flatCurves (xs.headD 0) (xs.drop 1)
    else d.flatCurves 0 xs
  | 30 => d.whenStarted fun d xs => if xs.length < 4 then none else d.alternatingCurves false xs
  | 31 => d.whenStarted fun d xs => if xs.length < 4 then none else d.alternatingCurves true xs
  | 1234 => d.whenStarted flatFlex
  | 1235 => d.whenStarted flex
  | 1236 => d.whenStarted flatFlexEnds
  | 1237 => d.whenStarted freeFlex
  | _ => none

end Drawing

def subroutineBias (count : Nat) : Int :=
  if count < 1240 then 107 else if count < 33900 then 1131 else 32768

def subroutine? (d : Drawing) (index : Index) : Option (ByteArray × Drawing) := do
  match d.operands with
  | [] => none
  | x :: rest =>
    let n := x.toInt32.toInt + subroutineBias index.length
    if n < 0 then none else
    return (← index[n.toNat]?, { d with operands := rest })

namespace CffTable

def maxCalls : Nat := 10

def number? (b : ByteArray) (pos x : Nat) : Option (Float32 × Nat) :=
  let next : Option Int := (u8? b (pos + 1)).map fun n => (n.toNat : Int)
  if x = 28 then (i16? b (pos + 1)).map fun n => (Float32.ofInt n.toInt, 3)
  else if x = 255 then
    (u32? b (pos + 1)).map fun n => (Float32.ofInt n.toInt32.toInt / 65536.0, 5)
  else if x < 32 then none
  else if x ≤ 246 then some (Float32.ofInt (x - 139), 1)
  else if x ≤ 250 then next.map fun n => (Float32.ofInt ((x - 247 : Int) * 256 + n + 108), 2)
  else next.map fun n => (Float32.ofInt (-(x - 251 : Int) * 256 - n - 108), 2)

def endGlyph (d : Drawing) (atEnd : Bool) : Option Drawing :=
  let d := { d.closeContour with contourOpen := false, ended := true }
  if atEnd then some d else none

/-- Runs a program at most `calls` levels of calls deep. Each instruction takes at least one byte. -/
def run (t : CffTable) : Nat → Nat → ByteArray → Nat → Drawing → Option Drawing
  | _, 0, _, _, d => some d
  | calls, fuel + 1, b, pos, d =>
    match u8? b pos with
    | none => some d
    | some byte =>
      let x := byte.toNat
      match x with
      | 10 => call calls fuel b pos d t.locals
      | 29 => call calls fuel b pos d t.globals
      | 11 => some d
      | 14 => endGlyph d (pos + 1 == b.size)
      | 12 => do
        let y ← u8? b (pos + 1)
        run t calls fuel b (pos + 2) (← d.apply (1200 + y.toNat))
      | 19 | 20 =>
        let d := d.hint
        run t calls fuel b (pos + 1 + (d.stems + 7) / 8) d
      | _ =>
        match number? b pos x with
        | some (n, width) => do run t calls fuel b (pos + width) (← d.push n)
        | none => do run t calls fuel b (pos + 1) (← d.apply x)
  termination_by calls fuel => (calls, 2 * fuel)
where
  call (calls fuel : Nat) (b : ByteArray) (pos : Nat) (d : Drawing) (index : Index) :
      Option Drawing :=
    match calls with
    | 0 => none
    | calls + 1 => do
      let (program, d) ← subroutine? d index
      let d ← run t calls (program.size + 1) program 0 d
      if d.ended then if pos + 1 = b.size then some d else none
      else run t (calls + 1) fuel b (pos + 1) d
  termination_by (calls, 2 * fuel + 1)

def outline? (t : CffTable) (g : GlyphId) : Option (List PenStep) := do
  let program ← t.glyphs[g.toNat]?
  let d ← t.run maxCalls (program.size + 1) program 0 {}
  let steps := d.steps.reverse
  if d.ended ∧ drawable steps then some steps else none

end CffTable

end Galley.Sfnt
