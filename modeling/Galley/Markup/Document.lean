import Galley.Markup.Node
import Galley.Markup.Reference

/-! Building the tree while the tokens are read, so that of two faults the earlier one is reported. -/

namespace Galley.Markup

def xmlUri : String := "http://www.w3.org/XML/1998/namespace"

def xmlnsUri : String := "http://www.w3.org/2000/xmlns/"

abbrev Bindings := List (String × String)

structure Attribute where
  name : QName
  value : String
  pos : Position

structure OpenTag where
  name : QName
  pos : Position
  bindings : Bindings := []
  attributes : List Attribute := []

structure OpenElement where
  name : QName
  attributes : List (String × String)
  bindings : Bindings
  children : List Node := []

structure Builder where
  tag : Option OpenTag := none
  stack : List OpenElement := []
  root : Option Node := none

def Bindings.resolve? (bindings : Bindings) (a : Attribute) : Except Fault (Option String) :=
  if a.name.qualifier.isEmpty then .ok none
  else if a.name.qualifier = "xml" then .ok (some xmlUri)
  else match bindings.lookup a.name.qualifier with
    | some uri => .ok (some uri)
    | none => .error (.unknownQualifier a.name.qualifier a.pos)

/-- Resolves attributes in order and refuses two of one name and URI. -/
def Bindings.expandedNames (bindings : Bindings) :
    List (Option String × String) → List Attribute → Except Fault (List (Option String × String))
  | seen, [] => .ok seen
  | seen, a :: rest => do
    let name := (← bindings.resolve? a, a.name.name)
    if seen.contains name then throw (.duplicateAttribute a.name.name a.pos)
    bindings.expandedNames (name :: seen) rest

namespace OpenTag

def add (t : OpenTag) (name : QName) (value : String) (pos : Position) : Except Fault OpenTag := do
  if name.qualifier = "xmlns" then
    if value = xmlnsUri then throw (.reservedXmlnsUri pos)
    if name.name = "xml" ∧ value ≠ xmlUri then throw (.wrongXmlBinding pos)
    if name.name ≠ "xml" ∧ value = xmlUri then throw (.reservedXmlUri pos)
    if (t.bindings.lookup name.name).isSome then throw (.duplicateNamespace name.name pos)
    return if value = xmlUri then t else { t with bindings := (name.name, value) :: t.bindings }
  else if name.name = "xmlns" then
    if value = xmlUri then throw (.reservedXmlUri pos)
    if value = xmlnsUri then throw (.reservedXmlnsUri pos)
    return t
  else return { t with attributes := ⟨name, value, pos⟩ :: t.attributes }

def finish (t : OpenTag) (outer : Bindings) : Except Fault OpenElement := do
  let bindings := t.bindings ++ outer
  let attributes := t.attributes.reverse
  let _ ← bindings.expandedNames [] attributes
  unless t.name.qualifier.isEmpty || (bindings.lookup t.name.qualifier).isSome do
    throw (.unknownQualifier t.name.qualifier t.pos)
  let plain := attributes.filter fun a => a.name.qualifier.isEmpty
  return { name := t.name, attributes := plain.map fun a => (a.name.name, a.value), bindings }

end OpenTag

namespace OpenElement

def close (e : OpenElement) : Node := .element e.name.name e.attributes e.children.reverse

/-- Adds a child. Text that directly follows text continues it. -/
def add (e : OpenElement) (child : Node) : OpenElement :=
  match child, e.children with
  | .text more, .text content :: rest => { e with children := .text (content ++ more) :: rest }
  | _, _ => { e with children := child :: e.children }

end OpenElement

namespace Builder

def place (b : Builder) (node : Node) : Builder :=
  match b.stack, node with
  | e :: outer, _ => { b with stack := e.add node :: outer }
  | [], .element .. => { b with root := some node }
  | [], _ => b

def accept (b : Builder) : Token → Except Fault Builder
  | .tagName name pos =>
    if name.qualifier = "xmlns" then .error (.reservedXmlnsQualifier pos)
    else .ok { b with tag := some { name, pos } }
  | .attr name raw pos valuePos => do
    let value ← expandValue valuePos raw
    match b.tag with
    | none => return b
    | some t => return { b with tag := some (← t.add name (String.ofList value) pos) }
  | .tagEnd isEmpty => do
    match b.tag with
    | none => return b
    | some t =>
      let e ← t.finish ((b.stack.head?.map (·.bindings)).getD [])
      let b := { b with tag := none }
      return if isEmpty then b.place e.close else { b with stack := e :: b.stack }
  | .closeTag name pos =>
    match b.stack with
    | [] => .ok b
    | e :: outer =>
      if e.name = name then .ok ({ b with stack := outer }.place e.close)
      else .error (.closeTagMismatch e.name name pos)
  | .text raw pos => do return b.place (.text (String.ofList (← expandText pos raw)))
  | .verbatim content => .ok (b.place (.text (String.ofList content)))
  | .aside => .ok (b.place .aside)

/-- Reads tokens until the input ends. Each token takes at least one character, so `fuel` beyond the
length of the input is never used up. -/
def read : Nat → Place → Cursor → Builder → Except Fault Builder
  | 0, _, _, _ => .error .endOfInput
  | fuel + 1, place, c, b => do
    match ← next place c with
    | none => return b
    | some (token, place, c) => read fuel place c (← b.accept token)

end Builder

def parse (text : List Char) : Except Fault Node := do
  let (token, c) ← Cursor.tagName ⟨{}, text⟩
  let b ← Builder.read (text.length + 1) (.tag 0) c (← Builder.accept {} token)
  match b.root with
  | some root => return root
  | none => throw .unclosedRoot

/-- Name of the element put around a fragment, so that it may hold several outermost nodes. -/
def fragmentRoot : String := "richmark-fragment"

def wrap (markup : String) : List Char :=
  s!"<{fragmentRoot}>".toList ++ markup.toList ++ s!"</{fragmentRoot}>".toList

def parseFragment (markup : String) : Except Fault (List Node) := do
  match ← parse (wrap markup) with
  | .element _ _ children => return children
  | _ => return []

end Galley.Markup
