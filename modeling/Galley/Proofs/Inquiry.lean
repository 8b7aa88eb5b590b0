import Mathlib
import Galley.Compiled
import Galley.Proofs.Failure
import Galley.Proofs.Nesting

/-! Compiling as a sequence of questions. A compile asks fonts for the sizes of texts, one after the other,
and does nothing else with them. Answered as the fonts measure, its questions lead to what is compiled at once. -/

namespace Galley

open Markup (Node)

/-- Sizes of texts, each in a font by its name. -/
abbrev Sizes := String → String → Except Overflow Size

/-- A computation that asks for the sizes of texts on its way, each in a font by its name. -/
inductive Inquiry (α : Type) where
  | answer (result : Except Failure α)
  | measure (font text : String) (next : Size → Inquiry α)

namespace Inquiry

variable {α β : Type}

def bind : Inquiry α → (α → Inquiry β) → Inquiry β
  | answer (.error failure), _ => answer (.error failure)
  | answer (.ok a), f => f a
  | measure font text next, f => measure font text fun size => (next size).bind f

instance : Monad Inquiry where
  pure a := answer (.ok a)
  bind := bind

/-- The result when every question has the answer that `sizeOf` gives. A question without one ends it. -/
def run (sizeOf : Sizes) : Inquiry α → Except Failure α
  | answer result => result
  | measure font text next =>
    match sizeOf font text with
    | .ok size => (next size).run sizeOf
    | .error _ => .error .overflow

def questions (sizeOf : Sizes) : Inquiry α → Nat
  | answer _ => 0
  | measure font text next =>
    match sizeOf font text with
    | .ok size => (next size).questions sizeOf + 1
    | .error _ => 1

def sizeIn (font text : String) : Inquiry Size := measure font text fun size => answer (.ok size)

def placeWords (format : Format) (space : Length) : List String → Column → Inquiry Column
  | [], k => return k
  | word :: rest, k => do
    let size ← sizeIn format.font.name word
    placeWords format space rest (k.place (.word word format) size (if rest.isEmpty then 0 else space))

def placeText (format : Format) (words : List String) (k : Column) : Inquiry Column := do
  placeWords format (← sizeIn format.font.name " ").width words k

def text (p : Pass) (content : String) : Inquiry Pass :=
  let words := Text.words content
  if !p.isVisible || words.isEmpty then return p else do
  let format ← answer p.currentFormat
  return { p with column := ← placeText format words p.column }

mutual

def visit (c : Compiler) : Node → Pass → Inquiry Pass
  | .text content, p => text p content
  | .aside, p => return p
  | .element name attributes children, p => do
    let p ← answer (p.enter c (.ofName name) attributes)
    let p ← visitAll c children p
    return p.leave (.ofName name)

def visitAll (c : Compiler) : List Node → Pass → Inquiry Pass
  | [], p => return p
  | node :: rest, p => do visitAll c rest (← visit c node p)

end

def compile (c : Compiler) (markup : String) (maxWidth : Length) : Inquiry Compiled := do
  let nodes ← answer ((Markup.parseFragment markup).mapError .markup)
  let p ← visitAll c nodes { column := { maxWidth } }
  return ({} : Compiled).append ⟨p.column.finish.elements, p.column.finish.size, markup⟩

/-! Running a computation whose questions are answered as the fonts measure. -/

variable {sizeOf : Sizes} {c : Compiler} {p q : Pass}

theorem run_bind (x : Inquiry α) (f : α → Inquiry β) :
    (x >>= f).run sizeOf = x.run sizeOf >>= fun a => (f a).run sizeOf := by
  induction x with
  | answer result =>
    cases result with
    | error failure => rfl
    | ok a => rfl
  | measure font text next ih =>
    change (measure font text fun size => next size >>= f).run sizeOf = _
    rw [run, run]
    cases sizeOf font text with
    | ok size => exact ih size
    | error overflow => rfl

/-- The answers are what the fonts that a compiler resolves measure. -/
def Measures (sizeOf : Sizes) (c : Compiler) : Prop :=
  ∀ name font, c.fonts name = .ok font → ∀ text, sizeOf font.name text = font.measure text

/-- The same for the fonts that are open. -/
def MeasuresOpen (sizeOf : Sizes) (p : Pass) : Prop :=
  ∀ format ∈ p.formats, ∀ text, sizeOf format.font.name text = format.font.measure text

theorem MeasuresOpen.column (h : MeasuresOpen sizeOf p) (k : Column) : MeasuresOpen sizeOf { p with column := k } := h

theorem MeasuresOpen.enter (h : MeasuresOpen sizeOf p) (hc : Measures sizeOf c) {tag : Tag}
    {attributes : Attributes} (hq : p.enter c tag attributes = .ok q) : MeasuresOpen sizeOf q := by
  cases tag with
  | text =>
    obtain ⟨font, hf, hq⟩ := bind_eq_ok hq
    obtain ⟨color, -, hq⟩ := bind_eq_ok hq
    cases hq
    refine List.forall_mem_cons.mpr ⟨?_, h⟩
    rw [Pass.formatPart] at hf
    cases hl : attributes.lookup FormatPart.font.name with
    | some name =>
      rw [hl] at hf
      exact hc name font (mapError_eq_ok.mp hf)
    | none =>
      cases ho : p.formats with
      | nil =>
        rw [hl, ho] at hf
        cases hf
      | cons outer rest =>
        rw [hl, ho] at hf
        cases hf
        exact h outer (ho ▸ List.mem_cons_self)
  | condition =>
    obtain ⟨clause, -, hq⟩ := bind_eq_ok hq
    obtain ⟨value, -, hq⟩ := bind_eq_ok hq
    cases hq
    exact h
  | lineBreak | image | other name =>
    have hq' : q = { p with column := q.column } := Pass.leave_of_enter hq
    rw [hq']
    exact h.column _

theorem currentFormat_eq_ok {format : Format} : p.currentFormat = .ok format ↔ p.formats.head? = some format := by
  rw [Pass.currentFormat]
  cases p.formats <;> simp

theorem run_sizeIn {format : Format} (h : ∀ text, sizeOf format.font.name text = format.font.measure text)
    (text : String) : (sizeIn format.font.name text).run sizeOf = format.measure text := by
  rw [sizeIn, run, h, Format.measure]
  cases format.font.measure text <;> rfl

theorem run_placeWords {format : Format} (h : ∀ text, sizeOf format.font.name text = format.font.measure text)
    (space : Length) (words : List String) (k : Column) :
    (placeWords format space words k).run sizeOf = k.placeWords format space words := by
  induction words generalizing k with
  | nil => rfl
  | cons word rest ih =>
    rw [placeWords, run_bind, run_sizeIn h]
    exact bind_congr_of_ok fun size _ => ih _

theorem run_placeText {format : Format} (h : ∀ text, sizeOf format.font.name text = format.font.measure text)
    (words : List String) (k : Column) : (placeText format words k).run sizeOf = k.placeText format words := by
  rw [placeText, run_bind, run_sizeIn h]
  exact bind_congr_of_ok fun space _ => run_placeWords h space.width words k

theorem run_text (h : MeasuresOpen sizeOf p) (content : String) : (text p content).run sizeOf = p.text content := by
  rw [text, Pass.text]
  by_cases hskip : (!p.isVisible || (Text.words content).isEmpty) = true
  · rw [if_pos hskip, if_pos hskip]
    rfl
  · rw [if_neg hskip, if_neg hskip, run_bind]
    refine bind_congr_of_ok fun format hf => ?_
    have hm : ∀ text, sizeOf format.font.name text = format.font.measure text :=
      h format (List.mem_of_mem_head? (currentFormat_eq_ok.mp hf))
    rw [run_bind, run_placeText hm]
    rfl

mutual

theorem run_visit (hc : Measures sizeOf c) (node : Node) {p : Pass} (h : MeasuresOpen sizeOf p) :
    (visit c node p).run sizeOf = Pass.visit c node p := by
  cases node with
  | text content => exact run_text h content
  | aside => rfl
  | element name attributes children =>
    rw [visit, Pass.visit, run_bind]
    refine bind_congr_of_ok fun q hq => ?_
    rw [run_bind, run_visitAll hc children (h.enter hc hq)]
    rfl

theorem run_visitAll (hc : Measures sizeOf c) (nodes : List Node) {p : Pass} (h : MeasuresOpen sizeOf p) :
    (visitAll c nodes p).run sizeOf = Pass.visitAll c nodes p := by
  cases nodes with
  | nil => rfl
  | cons node rest =>
    rw [visitAll, Pass.visitAll, run_bind, run_visit hc node h]
    refine bind_congr_of_ok fun q hq => ?_
    -- A visited node closes what it opened, so the fonts open behind it were open before it.
    rw [Pass.visit_balanced node hq]
    exact run_visitAll hc rest (h.column q.column)

end

theorem run_compile (hc : Measures sizeOf c) (markup : String) (maxWidth : Length) :
    (compile c markup maxWidth).run sizeOf = c.compile markup maxWidth := by
  have hp : MeasuresOpen sizeOf { column := { maxWidth } } := List.forall_mem_nil _
  simp only [compile, run_bind, Compiler.compile, Compiler.fragment, Compiler.layout, bind_assoc]
  refine bind_congr_of_ok fun nodes _ => ?_
  rw [run_visitAll hc nodes hp]
  rfl

end Inquiry

end Galley
