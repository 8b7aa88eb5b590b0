/-! Colors and their hexadecimal literals: six or eight digits after an optional `#`, two for each of
red, green, blue and alpha. -/

namespace Galley

structure Color where
  r : UInt8
  g : UInt8
  b : UInt8
  a : UInt8 := 255
  deriving DecidableEq

inductive ColorError where
  | wrongLength (literal : String) (digits : Nat)
  | notHexadecimal (literal : String)
  deriving DecidableEq

namespace ColorError

def message : ColorError → String
  | wrongLength literal digits =>
    s!"invalid color format `{literal}`: expected 6 or 8 hex digits, found {digits}"
  | notHexadecimal literal => s!"malformed color literal `{literal}`: not a hexadecimal number"

end ColorError

namespace Color

def black : Color := ⟨0, 0, 0, 255⟩

def white : Color := ⟨255, 255, 255, 255⟩

instance : Inhabited Color := ⟨white⟩

def hexDigit? (c : Char) : Option Nat :=
  if '0' ≤ c ∧ c ≤ '9' then some (c.toNat - '0'.toNat)
  else if 'a' ≤ c ∧ c ≤ 'f' then some (c.toNat - 'a'.toNat + 10)
  else if 'A' ≤ c ∧ c ≤ 'F' then some (c.toNat - 'A'.toNat + 10)
  else none

def channel (high low : Nat) : UInt8 := UInt8.ofNat (16 * high + low)

def ofDigits? : List Nat → Option Color
  | [r, r', g, g', b, b'] => some ⟨channel r r', channel g g', channel b b', 255⟩
  | [r, r', g, g', b, b', a, a'] => some ⟨channel r r', channel g g', channel b b', channel a a'⟩
  | _ => none

def withoutHash : List Char → List Char
  | '#' :: cs => cs
  | cs => cs

/-- Reads a literal. A character that is no digit is reported before a wrong count. -/
def parse (literal : String) : Except ColorError Color :=
  match (withoutHash literal.toList).mapM hexDigit? with
  | none => .error (.notHexadecimal literal)
  | some digits =>
    match ofDigits? digits with
    | none => .error (.wrongLength literal digits.length)
    | some color => .ok color

end Color

end Galley
