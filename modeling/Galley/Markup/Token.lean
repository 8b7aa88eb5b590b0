import Galley.Text.Search
import Galley.Markup.Fault

/-! The pieces markup is made of, read one at a time. Which piece may come next depends on the place:
inside a start tag, inside the content of an open element, or after the outermost element. -/

namespace Galley.Markup

structure Cursor where
  pos : Position
  rest : List Char

inductive Token where
  | tagName (name : QName) (pos : Position)
  | attr (name : QName) (value : List Char) (pos valuePos : Position)
  | tagEnd (isEmpty : Bool)
  | closeTag (name : QName) (pos : Position)
  | text (raw : List Char) (pos : Position)
  | verbatim (content : List Char)
  | aside

/-- The number counts the elements around the innermost open one. -/
inductive Place where
  | tag (depth : Nat)
  | content (depth : Nat)
  | afterRoot

namespace Cursor

def skip (c : Cursor) (n : Nat) : Cursor := ⟨c.pos.afterAll (c.rest.take n), c.rest.drop n⟩

def run (c : Cursor) (p : Char → Bool) : List Char × Cursor :=
  let taken := c.rest.takeWhile p
  (taken, ⟨c.pos.afterAll taken, c.rest.dropWhile p⟩)

def spaces (c : Cursor) : Cursor := (c.run isSpace).2

def checked (c : Cursor) : Except Fault Cursor :=
  match c.rest with
  | x :: _ => if isAllowed x then .ok c else .error (.forbiddenChar x c.pos)
  | [] => .ok c

def textBefore (c : Cursor) (stops : List Char) : Except Fault (List Char × Cursor) := do
  let (taken, c) := c.run fun x => isAllowed x && !stops.contains x
  return (taken, ← c.checked)

/-- The longest start of a list none of whose positions meets a condition on what follows. -/
def splitWhere (stop : List Char → Bool) : List Char → List Char → List Char × List Char
  | taken, [] => (taken.reverse, [])
  | taken, x :: xs => if stop (x :: xs) then (taken.reverse, x :: xs) else splitWhere stop (x :: taken) xs

def textThrough (c : Cursor) (delimiter : String) : Except Fault (List Char × Cursor) := do
  let stop (xs : List Char) := delimiter.toList.isPrefixOf xs || !isAllowed (xs.headD ' ')
  let (taken, rest) := splitWhere stop [] c.rest
  let c ← checked ⟨c.pos.afterAll taken, rest⟩
  if delimiter.toList.isPrefixOf c.rest then return (taken, c.skip delimiter.length)
  throw (.missingDelimiter delimiter c.pos)

def expect (c : Cursor) (x : Char) : Except Fault Cursor :=
  match c.rest with
  | [] => .error .endOfInput
  | y :: ys => if y = x then .ok ⟨c.pos.after y, ys⟩ else .error (.unexpectedChar x y c.pos)

def name (c : Cursor) : Except Fault (List Char × Cursor) :=
  match c.rest with
  | x :: _ => if isNameStart x then .ok (c.run isNameChar) else .error (.invalidName c.pos)
  | [] => .error (.invalidName c.pos)

end Cursor

def QName.ofRun? (cs : List Char) : Option QName :=
  let before := cs.takeWhile (· ≠ ':')
  let starts (part : List Char) : Bool := (part.head?.map isNameStart).getD false
  match cs.dropWhile (· ≠ ':') with
  | [] => if starts before then some ⟨"", String.ofList before⟩ else none
  | _ :: after =>
    if (before.isEmpty || starts before) && starts after && !after.contains ':' then
      some ⟨String.ofList before, String.ofList after⟩
    else none

namespace Cursor

def qname (c : Cursor) : Except Fault (QName × Cursor) :=
  let (taken, c') := c.run isNameChar
  match QName.ofRun? taken with
  | some q => .ok (q, c')
  | none => .error (.invalidName c.pos)

def attr (c : Cursor) : Except Fault (Token × Cursor) := do
  let (name, c₁) ← c.qname
  let c₂ := (← c₁.spaces.expect '=').spaces
  match c₂.rest with
  | [] => throw .endOfInput
  | quote :: _ =>
    if quote ≠ '"' ∧ quote ≠ '\'' then throw (.expectedQuote quote c₂.pos)
    let c₃ := c₂.skip 1
    let (value, c₄) ← c₃.textBefore [quote, '<']
    return (.attr name value c.pos c₃.pos, ← c₄.expect quote)

def comment (c : Cursor) : Except Fault (Token × Cursor) := do
  let (body, c') ← (c.skip 4).textThrough "-->"
  if Text.occurs ['-', '-'] body || body.getLast? == some '-' then throw (.doubleHyphen c.pos)
  return (.aside, c')

def instruction (c : Cursor) : Except Fault (Token × Cursor) := do
  if "<?xml ".toList.isPrefixOf c.rest then throw (.misplacedDeclaration c.pos)
  let (_, c₁) ← (c.skip 2).name
  let (_, c₂) ← c₁.spaces.textThrough "?>"
  return (.aside, c₂)

def closeTag (c : Cursor) : Except Fault (Token × Cursor) := do
  let (name, c') ← (c.skip 2).qname
  return (.closeTag name c.pos, ← c'.spaces.expect '>')

def verbatim (c : Cursor) : Except Fault (Token × Cursor) := do
  let (content, c') ← (c.skip 9).textThrough "]]>"
  return (.verbatim content, c')

def text (c : Cursor) : Except Fault (Token × Cursor) := do
  let (raw, c') ← c.textBefore ['<']
  if Text.occurs [']', ']', '>'] raw then throw (.sectionEndInText c'.pos)
  return (.text raw c.pos, c')

def tagName (c : Cursor) : Except Fault (Token × Cursor) := do
  let (name, c') ← (c.skip 1).qname
  return (.tagName name (c.skip 1).pos, c')

end Cursor

def Place.closed : Nat → Place
  | 0 => .afterRoot
  | depth + 1 => .content depth

/-- The next token inside a start tag. An attribute must follow a space. -/
def nextInTag (depth : Nat) (c : Cursor) : Except Fault (Option (Token × Place × Cursor)) := do
  let c' := c.spaces
  match c'.rest with
  | [] => throw .endOfInput
  | '/' :: _ => return some (.tagEnd true, .closed depth, ← (c'.skip 1).expect '>')
  | '>' :: _ => return some (.tagEnd false, .content depth, c'.skip 1)
  | x :: _ =>
    if !isSpace (c.rest.headD x) then throw (.expectedSpace x c'.pos)
    let (token, c'') ← c'.attr
    return some (token, .tag depth, c'')

def nextInContent (depth : Nat) (c : Cursor) : Except Fault (Option (Token × Place × Cursor)) := do
  let stay (found : Token × Cursor) := some (found.1, Place.content depth, found.2)
  match c.rest with
  | [] => return none
  | '<' :: '!' :: '-' :: '-' :: _ => return stay (← c.comment)
  | '<' :: '!' :: '[' :: 'C' :: 'D' :: 'A' :: 'T' :: 'A' :: '[' :: _ => return stay (← c.verbatim)
  | '<' :: '!' :: _ => throw (.unknownToken c.pos)
  | '<' :: '?' :: _ => return stay (← c.instruction)
  | '<' :: '/' :: _ =>
    let (token, c') ← c.closeTag
    return some (token, .closed depth, c')
  | ['<'] => throw (.unknownToken c.pos)
  | '<' :: _ =>
    let (token, c') ← c.tagName
    return some (token, .tag (depth + 1), c')
  | _ => return stay (← c.text)

/-- After the outermost element only spaces and asides may follow. -/
def nextAfterRoot (c : Cursor) : Except Fault (Option (Token × Place × Cursor)) := do
  let c' := c.spaces
  let stay (found : Token × Cursor) := some (found.1, Place.afterRoot, found.2)
  match c'.rest with
  | [] => return none
  | '<' :: '!' :: '-' :: '-' :: _ => return stay (← c'.comment)
  | '<' :: '?' :: _ => return stay (← c'.instruction)
  | _ => throw (.unknownToken c'.pos)

def next : Place → Cursor → Except Fault (Option (Token × Place × Cursor))
  | .tag depth => nextInTag depth
  | .content depth => nextInContent depth
  | .afterRoot => nextAfterRoot

end Galley.Markup
