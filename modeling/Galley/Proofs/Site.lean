import Galley.Proofs.Failure
import Galley.Proofs.Words

/-! The nodes of a tree in document order, each with the elements around it, innermost first. What a node
shows, and whether it is at fault, is said by the nearest elements around it and by what came before,
without a pass. -/

namespace Galley

open Markup (Node)

structure Opening where
  name : String
  attributes : Attributes

structure Site where
  around : List Opening
  node : Node

mutual

def sites (around : List Opening) : Node → List Site
  | .text content => [⟨around, .text content⟩]
  | .aside => [⟨around, .aside⟩]
  | .element name attributes children =>
    ⟨around, .element name attributes children⟩ :: sitesOfAll (⟨name, attributes⟩ :: around) children

def sitesOfAll (around : List Opening) : List Node → List Site
  | [] => []
  | node :: rest => sites around node ++ sitesOfAll around rest

end

theorem sitesOfAll_append (around : List Opening) (nodes more : List Node) :
    sitesOfAll around (nodes ++ more) = sitesOfAll around nodes ++ sitesOfAll around more := by
  induction nodes with
  | nil => rfl
  | cons node rest ih => simp only [List.cons_append, sitesOfAll, ih, List.append_assoc]

def nearestInText (name : String) (around : List Opening) : Option String :=
  around.findSome? fun o => if o.name = "text" then o.attributes.lookup name else none

def isInText (around : List Opening) : Bool := around.any fun o => o.name = "text"

inductive Shown where
  | word (text : String) (around : List Opening)
  | image (attributes : Attributes)

def Site.isBreak (s : Site) : Bool :=
  match s.node with
  | .element name _ _ => name = "br"
  | _ => false

namespace Compiler

def holds (c : Compiler) (clause : String) : Bool :=
  match c.conditions clause with
  | .ok answer => answer
  | .error _ => false

/-- Whether the clause of the nearest conditional element holds. Without such an element all is visible. -/
def isVisibleIn (c : Compiler) (around : List Opening) : Bool :=
  match around.find? fun o => o.name = "if" with
  | none => true
  | some o => (o.attributes.lookup "clause").any c.holds

def formatIn (c : Compiler) (around : List Opening) : Option Format := do
  let name ← nearestInText "font" around
  let font ← (c.fonts name).toOption
  let literal ← nearestInText "color" around
  let color ← (Color.parse literal).toOption
  return ⟨font, color⟩

def shownAt (c : Compiler) (s : Site) : List Shown :=
  if !c.isVisibleIn s.around then [] else
  match s.node with
  | .text content => (Text.parts content).map fun word => .word word s.around
  | .aside => []
  | .element name attributes _ => if name = "img" then [.image attributes] else []

/-- Whether nothing has been shown since the last break. The sites are last first. -/
def isFresh (c : Compiler) (before : List Site) : Bool :=
  (before.takeWhile fun s => !s.isBreak).all fun s => (c.shownAt s).isEmpty

def partOffence {α : Type} (around : List Opening) (attributes : Attributes) (part : FormatPart)
    (read : String → Except Failure α) : Option Failure :=
  match attributes.lookup part.name with
  | some value => failure? (read value)
  | none => if isInText around then none else some (.missingFormat part)

def clauseOffence (c : Compiler) (attributes : Attributes) : Option Failure :=
  match attributes.lookup "clause" with
  | some clause => failure? (resolveBy .condition c.conditions clause)
  | none => some (.missingAttribute "if" "clause")

def imageOffence (c : Compiler) (attributes : Attributes) : Option Failure :=
  match attributes.lookup "src" with
  | some src =>
    ((attributes.lookup "color").bind fun literal => failure? (readColor literal)).or
      (failure? (resolveBy .image c.images src))
  | none => some (.missingAttribute "img" "src")

/-- The first text that the font around a node cannot measure. A space is measured before the words. -/
def sizeOffence (c : Compiler) (around : List Opening) (words : List String) : Option Failure :=
  (c.formatIn around).bind fun format => (" " :: words).findSome? fun text => failure? (format.measure text)

/-- What is wrong with a node behind the given sites, which are last first. The parts of an element are
checked in the order of this definition, and before its children. -/
def offence (c : Compiler) (before : List Site) (s : Site) : Option Failure :=
  match s.node with
  | .text content =>
    if c.isVisibleIn s.around ∧ Text.parts content ≠ [] then
      if isInText s.around then c.sizeOffence s.around (Text.parts content) else some (.missingFormat .font)
    else none
  | .aside => none
  | .element name attributes _ =>
    if name = "text" then
      (partOffence s.around attributes .font (resolveBy .font c.fonts)).or
        (partOffence s.around attributes .color readColor)
    else if name = "if" then c.clauseOffence attributes
    else if name = "img" then if c.isVisibleIn s.around then c.imageOffence attributes else none
    else if name = "br" then
      if ¬ isInText s.around ∧ c.isFresh before then some (.missingFormat .font) else none
    else if c.strict then some (.unsupportedElement name) else none

def firstOffence (c : Compiler) (before : List Site) : List Site → Option Failure
  | [] => none
  | s :: rest => (c.offence before s).or (c.firstOffence (s :: before) rest)

/-- Whether the elements around a node settle its format, as they do once each of them was entered. -/
def Settled (c : Compiler) (around : List Opening) : Prop := (c.formatIn around).isSome = isInText around

end Compiler

variable {c : Compiler} {around : List Opening} {name : String} {attributes : Attributes}

theorem nearestInText_of_ne (h : name ≠ "text") (key : String) :
    nearestInText key (⟨name, attributes⟩ :: around) = nearestInText key around := by
  simp [nearestInText, h]

theorem nearestInText_of_lookup {key value : String} (h : attributes.lookup key = some value) :
    nearestInText key (⟨"text", attributes⟩ :: around) = some value := by
  simp [nearestInText, h]

theorem nearestInText_of_inherited {key : String} (h : attributes.lookup key = none) :
    nearestInText key (⟨"text", attributes⟩ :: around) = nearestInText key around := by
  simp [nearestInText, h]

theorem isInText_of_ne (h : name ≠ "text") :
    isInText (⟨name, attributes⟩ :: around) = isInText around := by
  simp [isInText, h]

namespace Compiler

theorem formatIn_of_ne (h : name ≠ "text") :
    c.formatIn (⟨name, attributes⟩ :: around) = c.formatIn around := by
  simp only [formatIn, nearestInText_of_ne h]

theorem formatIn_eq_some {format : Format} : c.formatIn around = some format ↔
    (∃ name, nearestInText "font" around = some name ∧ c.fonts name = .ok format.font) ∧
    ∃ literal, nearestInText "color" around = some literal ∧ Color.parse literal = .ok format.color := by
  obtain ⟨font, color⟩ := format
  simp only [formatIn, Option.bind_eq_bind, Option.bind_eq_some_iff, toOption_eq_some, Option.pure_def,
    Option.some.injEq, Format.mk.injEq]
  constructor
  · rintro ⟨name, hn, _, hf, literal, hl, _, hp, rfl, rfl⟩
    exact ⟨⟨name, hn, hf⟩, literal, hl, hp⟩
  · rintro ⟨⟨name, hn, hf⟩, literal, hl, hp⟩
    exact ⟨name, hn, font, hf, literal, hl, color, hp, rfl, rfl⟩

theorem Settled.cons (h : c.Settled around) (hn : name ≠ "text") :
    c.Settled (⟨name, attributes⟩ :: around) := by
  rw [Settled, formatIn_of_ne hn, isInText_of_ne hn]
  exact h

theorem isVisibleIn_of_ne (h : name ≠ "if") :
    c.isVisibleIn (⟨name, attributes⟩ :: around) = c.isVisibleIn around := by
  simp [isVisibleIn, h]

theorem isFresh_cons (s : Site) (before : List Site) :
    c.isFresh (s :: before) = (s.isBreak || ((c.shownAt s).isEmpty && c.isFresh before)) := by
  cases hb : s.isBreak <;> simp [isFresh, hb]

theorem offence_break (before : List Site) (children : List Node) :
    c.offence before ⟨around, .element "br" attributes children⟩ =
      if ¬ isInText around ∧ c.isFresh before then some (.missingFormat .font) else none := by
  simp [offence]

end Compiler

end Galley
