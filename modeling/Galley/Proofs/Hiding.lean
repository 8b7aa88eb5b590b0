import Galley.Proofs.Simulation

/-! What is hidden has no part in a layout. Two trees that differ in hidden texts and in the attributes of
hidden images only are passed alike, node by node, so one pass does whatever the other does. -/

namespace Galley

open Markup (Node)

namespace Compiler

mutual

/-- Two nodes in the same place that differ in nothing visible. Breaks, formats and conditions act inside a
hidden element as they do elsewhere, so these are the same on both sides. -/
inductive Alike (c : Compiler) : List Opening → Node → Node → Prop
  | text {around : List Opening} (content : String) : Alike c around (.text content) (.text content)
  | hiddenText {around : List Opening} (h : c.isVisibleIn around = false) (content content' : String) :
    Alike c around (.text content) (.text content')
  | aside {around : List Opening} : Alike c around .aside .aside
  | element {around : List Opening} {name : String} {attributes : Attributes} {children children' : List Node}
    (h : AlikeAll c (⟨name, attributes⟩ :: around) children children') :
    Alike c around (.element name attributes children) (.element name attributes children')
  | hiddenImage {around : List Opening} {attributes attributes' : Attributes} {children children' : List Node}
    (hv : c.isVisibleIn around = false) (h : AlikeAll c (⟨"img", attributes⟩ :: around) children children') :
    Alike c around (.element "img" attributes children) (.element "img" attributes' children')

inductive AlikeAll (c : Compiler) : List Opening → List Node → List Node → Prop
  | nil {around : List Opening} : AlikeAll c around [] []
  | cons {around : List Opening} {node node' : Node} {rest rest' : List Node}
    (h : Alike c around node node') (hrest : AlikeAll c around rest rest') :
    AlikeAll c around (node :: rest) (node' :: rest')

end

end Compiler

namespace Pass

variable {c : Compiler} {around : List Opening} {p : Pass}

theorem text_of_hidden (hv : p.isVisible = false) (content : String) : p.text content = .ok p := by
  simp [text, hv]

theorem enter_image_of_hidden (hv : p.isVisible = false) (attributes : Attributes) :
    p.enter c (.ofName "img") attributes = .ok p := by
  have hn : Tag.ofName "img" = .image := by simp [Tag.ofName]
  simp [hn, enter, image, hv]

theorem visit_image_of_hidden (hv : p.isVisible = false) (attributes : Attributes) :
    visit c (.element "img" attributes []) p = .ok p := by
  have hleave : p.leave (.ofName "img") = p := by simp [Tag.ofName, leave]
  rw [visit, enter_image_of_hidden hv]
  exact congrArg Except.ok hleave

mutual

theorem visit_alike (node : Node) {node' : Node} {p : Pass} {around : List Opening}
    (h : c.Alike around node node') (hp : p.Within c around) : visit c node p = visit c node' p := by
  cases node with
  | text content =>
    cases h with
    | text => rfl
    | hiddenText hv _ content' =>
      have hvp : p.isVisible = false := hp.visible.trans hv
      exact (text_of_hidden hvp content).trans (text_of_hidden hvp content').symm
  | aside =>
    cases h
    rfl
  | element name attributes children =>
    cases h with
    | element h =>
      refine bind_congr_of_ok fun q hq => ?_
      exact congrArg (· >>= _) (visitAll_alike children h (enter_within hp hq))
    | hiddenImage hv h =>
      -- Neither image is looked at, and the children are in the same place below both.
      have hvp : p.isVisible = false := hp.visible.trans hv
      have henter := enter_image_of_hidden (c := c) hvp
      have hchildren := visitAll_alike children h (enter_within hp (henter attributes))
      rw [visit, visit, henter, henter]
      exact congrArg (· >>= _) hchildren

theorem visitAll_alike (nodes : List Node) {nodes' : List Node} {p : Pass} {around : List Opening}
    (h : c.AlikeAll around nodes nodes') (hp : p.Within c around) :
    visitAll c nodes p = visitAll c nodes' p := by
  cases nodes with
  | nil =>
    cases h
    rfl
  | cons node rest =>
    cases h with
    | cons hnode hrest =>
      rw [visitAll, visitAll, ← visit_alike node hnode hp]
      refine bind_congr_of_ok fun q hq => ?_
      have hq' := visit_balanced node hq
      exact visitAll_alike rest hrest (hq' ▸ hp.column q.column)

end

end Pass

namespace Compiler

variable {c : Compiler} {nodes nodes' : List Node}

theorem layout_alike (h : c.AlikeAll [] nodes nodes') (maxWidth : Length) :
    c.layout nodes maxWidth = c.layout nodes' maxWidth := by
  have hw : Pass.Within { column := { maxWidth } } c [] := ⟨rfl, rfl, rfl⟩
  rw [layout, layout, Pass.visitAll_alike nodes h hw]

def outcome (r : Except Failure Compiled) : Except Failure (List Element × Size) :=
  r.map fun out => (out.elements, out.size)

/-- Two fragments that differ in nothing visible have one layout or one failure. A pass goes over hidden words
and images as if they were not there. -/
theorem compile_ignores_hidden {markup markup' : String} {maxWidth : Length}
    (hn : Markup.parseFragment markup = .ok nodes) (hn' : Markup.parseFragment markup' = .ok nodes')
    (h : c.AlikeAll [] nodes nodes') :
    c.layout nodes maxWidth = c.layout nodes' maxWidth ∧
    outcome (c.compile markup maxWidth) = outcome (c.compile markup' maxWidth) ∧
    ∀ (around : List Opening) (p : Pass), p.Within c around → c.isVisibleIn around = false →
      (∀ content, Pass.visit c (.text content) p = .ok p) ∧
      ∀ attributes, Pass.visit c (.element "img" attributes []) p = .ok p := by
  have hl := layout_alike h maxWidth
  refine ⟨hl, ?_, fun around p hp hv => ?_⟩
  · rw [compile_of_parse hn, compile_of_parse hn', hl]
    cases c.layout nodes' maxWidth <;> rfl
  · have hvp : p.isVisible = false := hp.visible.trans hv
    exact ⟨Pass.text_of_hidden hvp, Pass.visit_image_of_hidden hvp⟩

def veiledMarkup : String := "<if clause=\"off\">a<img/><if clause=\"on\"><img src=\"dot\"/></if></if>"

def otherMarkup : String :=
  "<if clause=\"off\">b c<img src=\"none\"/><if clause=\"on\"><img src=\"dot\"/></if></if>"

def veiledNodes (content : String) (attributes : Attributes) : List Node :=
  [.element "if" [("clause", "off")]
    [.text content, .element "img" attributes [],
      .element "if" [("clause", "on")] [.element "img" [("src", "dot")] []]]]

theorem compile_ignores_hidden_veiled :
    Markup.parseFragment veiledMarkup = .ok (veiledNodes "a" []) ∧
    Markup.parseFragment otherMarkup = .ok (veiledNodes "b c" [("src", "none")]) ∧
    monospaced.AlikeAll [] (veiledNodes "a" []) (veiledNodes "b c" [("src", "none")]) ∧
    monospaced.layout (veiledNodes "a" []) 0 = monospaced.layout (veiledNodes "b c" [("src", "none")]) 0 ∧
    outcome (monospaced.compile veiledMarkup 0) = outcome (monospaced.compile otherMarkup 0) := by
  have hn : Markup.parseFragment veiledMarkup = .ok (veiledNodes "a" []) := by cbv
  have hn' : Markup.parseFragment otherMarkup = .ok (veiledNodes "b c" [("src", "none")]) := by cbv
  have hv : monospaced.isVisibleIn [⟨"if", [("clause", "off")]⟩] = false := by decide
  have halike : monospaced.AlikeAll [] (veiledNodes "a" []) (veiledNodes "b c" [("src", "none")]) := by
    refine .cons (.element (.cons (.hiddenText hv _ _) (.cons (.hiddenImage hv .nil) ?_))) .nil
    exact .cons (.element (.cons (.element .nil) .nil)) .nil
  obtain ⟨hl, ho, _⟩ := compile_ignores_hidden hn hn' halike
  exact ⟨hn, hn', halike, hl, ho⟩

end Compiler

end Galley
