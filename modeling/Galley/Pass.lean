import Galley.Line
import Galley.Resolve
import Galley.Text.Blank
import Galley.Markup.Node

/-! One pass over a tree of nodes in document order. Elements open a format or a condition for what is
inside them and close it behind them; words, images and breaks go to the column as they are met. -/

namespace Galley

open Markup (Node)

structure Compiler where
  fonts : FontResolver
  images : ImageResolver
  conditions : ConditionResolver
  strict : Bool

inductive Tag where
  | text
  | condition
  | lineBreak
  | image
  | other (name : String)
  deriving DecidableEq

def Tag.ofName (name : String) : Tag :=
  if name = "text" then .text
  else if name = "if" then .condition
  else if name = "br" then .lineBreak
  else if name = "img" then .image
  else .other name

abbrev Attributes := List (String × String)

def Attributes.required (attributes : Attributes) (element name : String) : Except Failure String :=
  match attributes.lookup name with
  | some value => .ok value
  | none => .error (.missingAttribute element name)

def resolveBy {α : Type} (resource : Resource) (resolver : String → Except ResolveError α)
    (name : String) : Except Failure α :=
  (resolver name).mapError (.resolver resource name)

def readColor (literal : String) : Except Failure Color := (Color.parse literal).mapError .color

def Attributes.tint (attributes : Attributes) : Except Failure Color :=
  match attributes.lookup "color" with
  | some literal => readColor literal
  | none => .ok .white

def Format.measure (format : Format) (text : String) : Except Failure Size :=
  (format.font.measure text).mapError fun _ => .overflow

namespace Column

/-- Places words apart by a space, which does not follow the last. -/
def placeWords (format : Format) (space : Length) : List String → Column → Except Failure Column
  | [], k => .ok k
  | word :: rest, k => do
    let size ← format.measure word
    placeWords format space rest (k.place (.word word format) size (if rest.isEmpty then 0 else space))

/-- The space is measured before the words, even if there is only one. -/
def placeText (format : Format) (words : List String) (k : Column) : Except Failure Column := do
  placeWords format (← format.measure " ").width words k

end Column

structure Pass where
  column : Column
  formats : List Format := []
  conditions : List Bool := []

namespace Pass

/-- The innermost condition alone decides. -/
def isVisible (p : Pass) : Bool := p.conditions.headD true

def currentFormat (p : Pass) : Except Failure Format :=
  match p.formats with
  | format :: _ => .ok format
  | [] => .error (.missingFormat .font)

def formatPart {α : Type} (p : Pass) (attributes : Attributes) (part : FormatPart)
    (read : String → Except Failure α) (inherit : Format → α) : Except Failure α :=
  match attributes.lookup part.name, p.formats with
  | some value, _ => read value
  | none, outer :: _ => .ok (inherit outer)
  | none, [] => .error (.missingFormat part)

def enterText (p : Pass) (c : Compiler) (attributes : Attributes) : Except Failure Pass := do
  let font ← p.formatPart attributes .font (resolveBy .font c.fonts) Format.font
  let color ← p.formatPart attributes .color readColor Format.color
  return { p with formats := ⟨font, color⟩ :: p.formats }

def enterCondition (p : Pass) (c : Compiler) (attributes : Attributes) : Except Failure Pass := do
  let clause ← attributes.required "if" "clause"
  let answer ← resolveBy .condition c.conditions clause
  return { p with conditions := answer :: p.conditions }

/-- A break looks for a format only where it leaves an empty line. -/
def lineBreak (p : Pass) : Except Failure Pass := do
  let spacing := do return (← p.currentFormat).font.lineSpacing
  return { p with column := ← p.column.lineBreak spacing }

def image (p : Pass) (c : Compiler) (attributes : Attributes) : Except Failure Pass :=
  if !p.isVisible then .ok p else do
  let src ← attributes.required "img" "src"
  let tint ← attributes.tint
  let image ← resolveBy .image c.images src
  return { p with column := p.column.place (.image image tint) image.size 0 }

/-- Places the words of a text node. Without a word no format is needed. -/
def text (p : Pass) (content : String) : Except Failure Pass :=
  let words := Text.words content
  if !p.isVisible || words.isEmpty then .ok p else do
  let format ← p.currentFormat
  return { p with column := ← p.column.placeText format words }

def enter (p : Pass) (c : Compiler) (tag : Tag) (attributes : Attributes) : Except Failure Pass :=
  match tag with
  | .text => p.enterText c attributes
  | .condition => p.enterCondition c attributes
  | .lineBreak => p.lineBreak
  | .image => p.image c attributes
  | .other name => if c.strict then .error (.unsupportedElement name) else .ok p

def leave (p : Pass) (tag : Tag) : Pass :=
  match tag with
  | .text => { p with formats := p.formats.tail }
  | .condition => { p with conditions := p.conditions.tail }
  | _ => p

mutual

def visit (c : Compiler) : Node → Pass → Except Failure Pass
  | .text content, p => p.text content
  | .aside, p => .ok p
  | .element name attributes children, p => do
    let p ← p.enter c (.ofName name) attributes
    let p ← visitAll c children p
    return p.leave (.ofName name)

def visitAll (c : Compiler) : List Node → Pass → Except Failure Pass
  | [], p => .ok p
  | node :: rest, p => do visitAll c rest (← visit c node p)

end

end Pass

/-- Sets the nodes of a fragment on lines no wider than `maxWidth` wherever more than one item is on a
line. -/
def Compiler.layout (c : Compiler) (nodes : List Node) (maxWidth : Length) : Except Failure Column := do
  return (← Pass.visitAll c nodes { column := { maxWidth } }).column.finish

end Galley
