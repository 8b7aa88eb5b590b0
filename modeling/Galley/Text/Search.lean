/-! Finding a sequence of characters in a text. -/

namespace Galley.Text

def occurs (part : List Char) : List Char → Bool
  | [] => part.isEmpty
  | c :: cs => part.isPrefixOf (c :: cs) || occurs part cs

end Galley.Text
