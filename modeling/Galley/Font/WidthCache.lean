import Std.Data.HashMap
import Galley.Length

/-! Widths of texts measured before. The oldest ones make room for new ones, and a text known already
keeps its age. -/

namespace Galley

structure WidthCache where
  capacity : Nat
  widths : Std.HashMap String Length := {}
  front : List String := []
  back : List String := []

namespace WidthCache

def order (c : WidthCache) : List String := c.front ++ c.back.reverse

def get? (c : WidthCache) (text : String) : Option Length := c.widths[text]?

def popOldest? (c : WidthCache) : Option (String × WidthCache) :=
  match c.front with
  | text :: rest => some (text, { c with front := rest })
  | [] =>
    match c.back.reverse with
    | text :: rest => some (text, { c with front := rest, back := [] })
    | [] => none

/-- Forgets the oldest texts while there are too many, at most `n` of them. -/
def evict : Nat → WidthCache → WidthCache
  | 0, c => c
  | n + 1, c =>
    if c.widths.size ≤ c.capacity then c else
    match c.popOldest? with
    | none => c
    | some (text, c) => evict n { c with widths := c.widths.erase text }

def insert (c : WidthCache) (text : String) (width : Length) : WidthCache :=
  if c.widths.contains text then c else
  let c := { c with widths := c.widths.insert text width, back := text :: c.back }
  c.evict c.order.length

end WidthCache

end Galley
