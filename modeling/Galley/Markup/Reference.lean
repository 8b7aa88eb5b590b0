import Galley.Markup.Token

/-! References written with an ampersand, and the text they stand for. -/

namespace Galley.Markup

def namedCharacters : List (String × Char) :=
  [("quot", '"'), ("amp", '&'), ("apos", '\''), ("lt", '<'), ("gt", '>')]

def digitValue (c : Char) : Nat :=
  if c.isDigit then c.toNat - '0'.toNat else c.toLower.toNat - 'a'.toNat + 10

def isHexDigit (c : Char) : Bool := c.isDigit || ('a' ≤ c.toLower && c.toLower ≤ 'f')

/-- The character of a numeric reference's digits. Numbers that name no character stand for the
replacement character, and numbers of more than 32 bits for nothing. -/
def numbered? (base : Nat) (digits : List Char) : Option Char :=
  let n := digits.foldl (fun n c => base * n + digitValue c) 0
  if digits.isEmpty ∨ 0x100000000 ≤ n then none else
  let c := if h : n.isValidChar then Char.ofNatAux n h else '\uFFFD'
  if isAllowed c then some c else none

def reference (c : Cursor) : Except Fault (Char × Cursor) :=
  let closed (x : Option Char) (c' : Cursor) : Except Fault (Char × Cursor) :=
    match x, c'.rest with
    | some x, ';' :: _ => .ok (x, c'.skip 1)
    | _, _ => .error (.malformedReference c.pos)
  match c.rest with
  | '&' :: '#' :: 'x' :: _ =>
    let (digits, c') := (c.skip 3).run isHexDigit
    closed (numbered? 16 digits) c'
  | '&' :: '#' :: _ =>
    let (digits, c') := (c.skip 2).run Char.isDigit
    closed (numbered? 10 digits) c'
  | _ =>
    match (c.skip 1).name with
    | .error _ => .error (.malformedReference c.pos)
    | .ok (name, c') =>
      match namedCharacters.lookup (String.ofList name), c'.rest with
      | none, ';' :: _ => .error (.unknownEntity (String.ofList name) c.pos)
      | x, _ => closed x c'

/-- Replaces references by their characters and other spacing characters by what `spacing` gives. A
carriage return before a line feed is dropped. Each step takes at least one character. -/
def expandFrom (spacing : Char → Char) : Nat → Cursor → List Char → Except Fault (List Char)
  | 0, _, done => .ok done.reverse
  | fuel + 1, c, done =>
    match c.rest with
    | [] => .ok done.reverse
    | '&' :: _ => do
      let (x, c') ← reference c
      expandFrom spacing fuel c' (x :: done)
    | '\r' :: '\n' :: _ => expandFrom spacing fuel (c.skip 1) done
    | x :: _ => expandFrom spacing fuel (c.skip 1) (spacing x :: done)

def expandText (pos : Position) (raw : List Char) : Except Fault (List Char) :=
  expandFrom (fun c => if c = '\r' then '\n' else c) raw.length ⟨pos, raw⟩ []

def expandValue (pos : Position) (raw : List Char) : Except Fault (List Char) :=
  expandFrom (fun c => if c = '\r' ∨ c = '\n' ∨ c = '\t' then ' ' else c) raw.length ⟨pos, raw⟩ []

end Galley.Markup
