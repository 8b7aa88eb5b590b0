import Galley.Text.Quoted
import Galley.Markup.Character

/-! What can be wrong with markup, and where. -/

namespace Galley.Markup

/-- Row and column, both from one. Rows end at line feeds and columns count characters. -/
structure Position where
  row : Nat := 1
  column : Nat := 1
  deriving DecidableEq, Repr

namespace Position

def after (p : Position) (c : Char) : Position :=
  if c = '\n' then ⟨p.row + 1, 1⟩ else ⟨p.row, p.column + 1⟩

def afterAll (p : Position) (cs : List Char) : Position := cs.foldl after p

def toText (p : Position) : String := s!"{p.row}:{p.column}"

end Position

structure QName where
  qualifier : String := ""
  name : String
  deriving DecidableEq, Repr

def QName.toText (q : QName) : String :=
  if q.qualifier.isEmpty then q.name else q.qualifier ++ ":" ++ q.name

inductive Fault where
  | closeTagMismatch (expected found : QName) (pos : Position)
  | invalidName (pos : Position)
  | unexpectedChar (expected found : Char) (pos : Position)
  | expectedSpace (found : Char) (pos : Position)
  | expectedQuote (found : Char) (pos : Position)
  | missingDelimiter (expected : String) (pos : Position)
  | duplicateAttribute (name : String) (pos : Position)
  | duplicateNamespace (qualifier : String) (pos : Position)
  | unknownQualifier (qualifier : String) (pos : Position)
  | wrongXmlBinding (pos : Position)
  | reservedXmlUri (pos : Position)
  | reservedXmlnsUri (pos : Position)
  | reservedXmlnsQualifier (pos : Position)
  | unknownEntity (name : String) (pos : Position)
  | malformedReference (pos : Position)
  | sectionEndInText (pos : Position)
  | forbiddenChar (c : Char) (pos : Position)
  | doubleHyphen (pos : Position)
  | misplacedDeclaration (pos : Position)
  | unknownToken (pos : Position)
  | endOfInput
  | unclosedRoot
  deriving DecidableEq, Repr

namespace Fault

def message : Fault → String
  | closeTagMismatch expected found pos =>
    s!"expected '{expected.toText}' tag, not '{found.toText}' at {pos.toText}"
  | invalidName pos => s!"invalid name token at {pos.toText}"
  | unexpectedChar expected found pos =>
    "expected '" ++ expected.toString ++ "' not '" ++ (Char.ofNat (leadByte found)).toString ++ "' at " ++
      pos.toText
  | expectedSpace found pos =>
    "expected a whitespace not '" ++ (Char.ofNat (leadByte found)).toString ++ "' at " ++ pos.toText
  | expectedQuote found pos =>
    "expected a quote not '" ++ (Char.ofNat (leadByte found)).toString ++ "' at " ++ pos.toText
  | missingDelimiter expected pos => s!"expected '{expected}' at {pos.toText}"
  | duplicateAttribute name pos => s!"attribute '{name}' at {pos.toText} is already defined"
  | duplicateNamespace qualifier pos => s!"namespace '{qualifier}' at {pos.toText} is already defined"
  | unknownQualifier qualifier pos => s!"an unknown namespace prefix '{qualifier}' at {pos.toText}"
  | wrongXmlBinding pos => s!"'xml' namespace prefix mapped to wrong URI at {pos.toText}"
  | reservedXmlUri pos => s!"the 'xml' namespace URI is used for not 'xml' prefix at {pos.toText}"
  | reservedXmlnsUri pos => s!"the 'xmlns' URI is used at {pos.toText}, but it must not be declared"
  | reservedXmlnsQualifier pos => s!"the 'xmlns' prefix is used at {pos.toText}, but it must not be"
  | unknownEntity name pos => s!"unknown entity reference '{name}' at {pos.toText}"
  | malformedReference pos => s!"malformed entity reference at {pos.toText}"
  | sectionEndInText pos => s!"']]>' at {pos.toText} is not allowed inside a character data"
  | forbiddenChar c pos => "a non-XML character " ++ Text.quotedChar c ++ " found at " ++ pos.toText
  | doubleHyphen pos => s!"comment at {pos.toText} contains '--'"
  | misplacedDeclaration pos => s!"unexpected XML declaration at {pos.toText}"
  | unknownToken pos => s!"unknown token at {pos.toText}"
  | endOfInput => "unexpected end of stream"
  | unclosedRoot => "the root node was opened but never closed"

end Fault

end Galley.Markup
