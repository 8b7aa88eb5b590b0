import Galley.Pass
import Galley.Markup.Document

/-! Compiling markup into elements with positions. -/

namespace Galley

structure Compiled where
  elements : List Element := []
  size : Size := {}
  source : String := ""

namespace Compiled

def append (target more : Compiled) : Compiled :=
  ⟨target.elements ++ more.elements, target.size.union more.size, target.source ++ more.source⟩

def draw {σ : Type} [DrawTarget σ] (compiled : Compiled) (target : σ) (offset : Point) : σ :=
  compiled.elements.foldl (fun target e => e.draw target offset) target

end Compiled

structure Configuration where
  fonts : Option FontResolver := none
  images : Option ImageResolver := none
  conditions : Option ConditionResolver := none
  strict : Bool := false

namespace Compiler

def ofConfiguration (c : Configuration) : Except Failure Compiler :=
  match c.fonts with
  | none => .error .fontsNotConfigured
  | some fonts => .ok
    { fonts
      images := c.images.getD (unconfigured .image)
      conditions := c.conditions.getD (unconfigured .condition)
      strict := c.strict }

def fragment (c : Compiler) (markup : String) (maxWidth : Length) : Except Failure Compiled := do
  let nodes ← (Markup.parseFragment markup).mapError .markup
  let column ← c.layout nodes maxWidth
  return ⟨column.elements, column.size, markup⟩

/-- Lays out a fragment on top of what a target holds. After a failure the target is the old one. -/
def compileInto (c : Compiler) (markup : String) (maxWidth : Length) (target : Compiled) :
    Compiled × Option Failure :=
  match c.fragment markup maxWidth with
  | .ok more => (target.append more, none)
  | .error failure => (target, some failure)

def compile (c : Compiler) (markup : String) (maxWidth : Length) : Except Failure Compiled := do
  return ({} : Compiled).append (← c.fragment markup maxWidth)

/-- A failure is the result of its own job. An overflow in one job leaves all of them without a result. -/
def compileAll (c : Compiler) (jobs : List (String × Length)) :
    Except Overflow (List (Except Failure Compiled)) :=
  jobs.mapM fun job =>
    match c.compile job.1 job.2 with
    | .error .overflow => .error {}
    | result => .ok result

def describe (c : Compiler) : String :=
  "Compiler \x7b strict_elements: " ++ toString c.strict ++ ", .. \x7d"

end Compiler

end Galley
