/-! The tree that markup denotes. Only attributes without a qualifier are kept. -/

namespace Galley.Markup

inductive Node where
  | text (content : String)
  | element (name : String) (attributes : List (String × String)) (children : List Node)
  /-- A comment or an instruction. It shows nothing but keeps the texts around it apart. -/
  | aside
  deriving Inhabited

end Galley.Markup
