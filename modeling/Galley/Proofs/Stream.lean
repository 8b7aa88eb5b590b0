import Galley.Proofs.Site

/-! The stream of items and breaks that a tree gives, before any of them has a place. -/

namespace Galley

structure Item where
  body : Body
  size : Size
  advance : Length

def Element.content (e : Element) : Body × Size := (e.body, e.size)

def Item.content (i : Item) : Body × Size := (i.body, i.size)

inductive Piece where
  | item (i : Item)
  /-- A break, with the height of an empty line where a font is in force. -/
  | lineBreak (spacing : Option Length)

def Piece.item? : Piece → Option Item
  | .item i => some i
  | .lineBreak _ => none

/-- The size of a text. A text that the font cannot measure ends a pass before it has one. -/
def Format.sizeOf (format : Format) (text : String) : Size := (format.font.measure text).toOption.getD {}

theorem Format.measure_eq_ok {format : Format} {text : String} {size : Size} :
    format.measure text = .ok size ↔ format.font.measure text = .ok size := mapError_eq_ok

theorem Format.sizeOf_eq {format : Format} {text : String} {size : Size} (h : format.measure text = .ok size) :
    format.sizeOf text = size := by
  rw [sizeOf, toOption_eq_some.mpr (measure_eq_ok.mp h), Option.getD_some]

def wordItems (format : Format) : List String → List Item
  | [] => []
  | word :: rest =>
    ⟨.word word format, format.sizeOf word, if rest.isEmpty then 0 else (format.sizeOf " ").width⟩ ::
      wordItems format rest

namespace Compiler

def imageItem (c : Compiler) (attributes : Attributes) : Option Item := do
  let src ← attributes.lookup "src"
  let image ← (c.images src).toOption
  let tint ← attributes.tint.toOption
  return ⟨.image image tint, image.size, 0⟩

def piecesAt (c : Compiler) (s : Site) : List Piece :=
  match s.node with
  | .text content =>
    if c.isVisibleIn s.around then
      match c.formatIn s.around with
      | some format => (wordItems format (Text.parts content)).map .item
      | none => []
    else []
  | .aside => []
  | .element name attributes _ =>
    if name = "br" then [.lineBreak ((c.formatIn s.around).map (·.font.lineSpacing))]
    else if name = "img" ∧ c.isVisibleIn s.around then (c.imageItem attributes).toList.map .item
    else []

def stream (c : Compiler) (nodes : List Markup.Node) : List Piece :=
  (sitesOfAll [] nodes).flatMap c.piecesAt

theorem stream_append (c : Compiler) (nodes more : List Markup.Node) :
    c.stream (nodes ++ more) = c.stream nodes ++ c.stream more := by
  rw [stream, sitesOfAll_append, List.flatMap_append]
  rfl

end Compiler

namespace Column

def add (k : Column) : Piece → Column
  | .item i => k.place i.body i.size i.advance
  | .lineBreak spacing =>
    if k.pending.isEmpty then
      match spacing with
      | some spacing => k.leaveBlank spacing
      | none => k
    else k.finishLine

def addAll (k : Column) (pieces : List Piece) : Column := pieces.foldl add k

def set (maxWidth : Length) (pieces : List Piece) : Column := (addAll { maxWidth } pieces).finish

theorem addAll_append (k : Column) (ps qs : List Piece) :
    k.addAll (ps ++ qs) = (k.addAll ps).addAll qs := List.foldl_append

theorem pending_place (k : Column) (body : Body) (size : Size) (advance : Length) :
    (k.place body size advance).pending.isEmpty = false := rfl

theorem placeWords_failure (format : Format) (space : Length) (words : List String) (k : Column) :
    failure? (k.placeWords format space words) = words.findSome? fun word => failure? (format.measure word) := by
  induction words generalizing k with
  | nil => rfl
  | cons word rest ih =>
    rw [placeWords, failure?_bind fun size _ => ih _, findSome?_cons_or]

theorem placeText_failure (format : Format) (words : List String) (k : Column) :
    failure? (k.placeText format words) = (" " :: words).findSome? fun text => failure? (format.measure text) := by
  rw [placeText, failure?_bind fun space _ => placeWords_failure format space.width words k, findSome?_cons_or]

theorem placeWords_eq_ok {format : Format} {words : List String} {k k' : Column}
    (h : k.placeWords format (format.sizeOf " ").width words = .ok k') :
    k' = k.addAll ((wordItems format words).map .item) ∧
      k'.pending.isEmpty = (words.isEmpty && k.pending.isEmpty) := by
  induction words generalizing k with
  | nil =>
    cases h
    exact ⟨rfl, rfl⟩
  | cons word rest ih =>
    obtain ⟨size, hm, h⟩ := bind_eq_ok h
    obtain ⟨hitems, hpending⟩ := ih h
    refine ⟨?_, ?_⟩
    · rw [hitems, wordItems, Format.sizeOf_eq hm]
      rfl
    · rw [hpending, pending_place, Bool.and_false, List.isEmpty_cons, Bool.false_and]

theorem placeText_eq_ok {format : Format} {words : List String} {k k' : Column}
    (h : k.placeText format words = .ok k') : k' = k.addAll ((wordItems format words).map .item) ∧
      k'.pending.isEmpty = (words.isEmpty && k.pending.isEmpty) := by
  obtain ⟨space, hspace, h⟩ := bind_eq_ok h
  rw [← Format.sizeOf_eq hspace] at h
  exact placeWords_eq_ok h

end Column

end Galley
