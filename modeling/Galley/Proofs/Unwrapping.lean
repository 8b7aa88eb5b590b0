import Galley.Proofs.Hiding

/-! Elements that change nothing for what is inside them. A pass goes by its column, the innermost format and
whether it is visible. Where entering an element leaves these three as they are, the children may stand in the
element's place. -/

namespace Galley

open Markup (Node)

namespace Compiler

/-- Elements that may give way to their children. The elements around are those of the tree as it was. -/
inductive Neutral (c : Compiler) : List Opening → String → Attributes → Prop
  | unknown {around : List Opening} {name : String} {attributes : Attributes} (hs : c.strict = false)
    (hn : name ∉ ["text", "if", "br", "img"]) : Neutral c around name attributes
  | inherited {around : List Opening} {attributes : Attributes} (hf : attributes.lookup "font" = none)
    (hc : attributes.lookup "color" = none) (ht : isInText around = true) : Neutral c around "text" attributes
  | met {around : List Opening} {attributes : Attributes} {clause : String}
    (hl : attributes.lookup "clause" = some clause) (ha : c.conditions clause = .ok true)
    (hv : c.isVisibleIn around = true) : Neutral c around "if" attributes

/-- The second list comes from the first when some neutral elements, at any depth, are replaced by their
children. -/
inductive Unwraps (c : Compiler) : List Opening → List Node → List Node → Prop
  | nil {around : List Opening} : Unwraps c around [] []
  | text {around : List Opening} {rest rest' : List Node} (content : String) (h : Unwraps c around rest rest') :
    Unwraps c around (.text content :: rest) (.text content :: rest')
  | aside {around : List Opening} {rest rest' : List Node} (h : Unwraps c around rest rest') :
    Unwraps c around (.aside :: rest) (.aside :: rest')
  | keep {around : List Opening} {name : String} {attributes : Attributes}
    {children children' rest rest' : List Node} (hin : Unwraps c (⟨name, attributes⟩ :: around) children children')
    (h : Unwraps c around rest rest') :
    Unwraps c around (.element name attributes children :: rest) (.element name attributes children' :: rest')
  | drop {around : List Opening} {name : String} {attributes : Attributes}
    {children children' rest rest' : List Node} (hn : c.Neutral around name attributes)
    (hin : Unwraps c (⟨name, attributes⟩ :: around) children children') (h : Unwraps c around rest rest') :
    Unwraps c around (.element name attributes children :: rest) (children' ++ rest')

end Compiler

theorem bind_map_congr {α β γ δ : Type} {r r' : Except Failure α} {g g' : α → Except Failure β} {v : α → γ}
    {w : β → δ} (h : r.map v = r'.map v)
    (hg : ∀ a a', r = .ok a → r' = .ok a' → v a = v a' → (g a).map w = (g' a').map w) :
    (r >>= g).map w = (r' >>= g').map w := by
  cases r with
  | error f =>
    cases r' with
    | error f' =>
      cases h
      rfl
    | ok a' => cases h
  | ok a =>
    cases r' with
    | error f' => cases h
    | ok a' => exact hg a a' rfl rfl (Except.ok.inj h)

theorem map_bind_congr {α β δ : Type} {r : Except Failure α} {g g' : α → Except Failure β} {w : β → δ}
    (hg : ∀ a, (g a).map w = (g' a).map w) : (r >>= g).map w = (r >>= g').map w :=
  bind_map_congr (v := id) rfl fun a a' ha ha' _ => by
    rw [ha] at ha'
    cases ha'
    exact hg a

namespace Pass

/-- All that a pass goes by. What is open further out has no effect before the innermost is closed. -/
def view (p : Pass) : Column × Option Format × Bool := (p.column, p.formats.head?, p.isVisible)

variable {c : Compiler} {around : List Opening} {p p' q : Pass} {attributes : Attributes}

theorem view_eq (h : p.view = p'.view) :
    p.column = p'.column ∧ p.formats.head? = p'.formats.head? ∧ p.isVisible = p'.isVisible := by
  simpa only [view, Prod.mk.injEq] using h

theorem view_with_column (h : p.view = p'.view) {k k' : Column} (hk : k = k') :
    { p with column := k }.view = { p' with column := k' }.view := by
  obtain ⟨_, hf, hv⟩ := view_eq h
  subst hk
  exact Prod.ext rfl (Prod.ext hf hv)

theorem formats_of_head (h : p.formats.head? = p'.formats.head?) :
    p.formats = [] ∧ p'.formats = [] ∨
      ∃ outer rest rest', p.formats = outer :: rest ∧ p'.formats = outer :: rest' := by
  cases hp : p.formats with
  | nil =>
    rw [hp] at h
    exact Or.inl ⟨rfl, List.head?_eq_none_iff.mp h.symm⟩
  | cons outer rest =>
    rw [hp] at h
    obtain ⟨rest', hp'⟩ := List.head?_eq_some_iff.mp h.symm
    exact Or.inr ⟨outer, rest, rest', rfl, hp'⟩

theorem formatPart_of_head {α : Type} {part : FormatPart} {read : String → Except Failure α}
    {inherit : Format → α} (h : p.formats.head? = p'.formats.head?) :
    p.formatPart attributes part read inherit = p'.formatPart attributes part read inherit := by
  rw [formatPart, formatPart]
  rcases formats_of_head h with ⟨hp, hp'⟩ | ⟨outer, rest, rest', hp, hp'⟩
  · rw [hp, hp']
  · rw [hp, hp']
    cases attributes.lookup part.name <;> rfl

theorem currentFormat_of_head (h : p.formats.head? = p'.formats.head?) : p.currentFormat = p'.currentFormat := by
  rw [currentFormat, currentFormat]
  rcases formats_of_head h with ⟨hp, hp'⟩ | ⟨outer, rest, rest', hp, hp'⟩
  · rw [hp, hp']
  · rw [hp, hp']

theorem image_view (h : p.view = p'.view) (attributes : Attributes) :
    (p.image c attributes).map view = (p'.image c attributes).map view := by
  obtain ⟨hk, hf, hv⟩ := view_eq h
  rw [image, image, ← hv]
  cases p.isVisible with
  | false => exact congrArg Except.ok h
  | true =>
    refine map_bind_congr fun src => map_bind_congr fun tint => map_bind_congr fun image => ?_
    rw [hk]
    exact congrArg Except.ok (view_with_column h rfl)

theorem text_column (h : p.view = p'.view) (content : String) :
    (p.text content).map column = (p'.text content).map column := by
  obtain ⟨hk, hf, hv⟩ := view_eq h
  rw [text, text, ← hv, ← currentFormat_of_head hf]
  by_cases hw : (!p.isVisible || (Text.words content).isEmpty) = true
  · rw [if_pos hw, if_pos hw]
    exact congrArg Except.ok hk
  · rw [if_neg hw, if_neg hw]
    refine map_bind_congr fun format => ?_
    rw [hk]
    exact map_bind_congr fun k => rfl

theorem enter_view (h : p.view = p'.view) (tag : Tag) (attributes : Attributes) :
    (p.enter c tag attributes).map view = (p'.enter c tag attributes).map view := by
  obtain ⟨hk, hf, hv⟩ := view_eq h
  cases tag with
  | text =>
    rw [enter, enter, enterText, enterText, formatPart_of_head hf, formatPart_of_head hf]
    refine map_bind_congr fun font => map_bind_congr fun color => congrArg Except.ok ?_
    exact Prod.ext hk (Prod.ext rfl hv)
  | condition =>
    refine map_bind_congr fun clause => map_bind_congr fun answer => congrArg Except.ok ?_
    exact Prod.ext hk (Prod.ext hf rfl)
  | lineBreak =>
    rw [enter, enter, lineBreak, lineBreak, currentFormat_of_head hf, hk]
    exact map_bind_congr fun k => congrArg Except.ok (view_with_column h rfl)
  | image => exact image_view h attributes
  | other name =>
    rw [enter, enter]
    cases c.strict with
    | true => rfl
    | false => exact congrArg Except.ok h

/-- Entering a neutral element succeeds, and a pass goes by the same before and after it. -/
theorem enter_neutral {name : String} (hn : c.Neutral around name attributes) (hp : p.Within c around) :
    ∃ q, p.enter c (.ofName name) attributes = .ok q ∧ q.view = p.view := by
  cases hn with
  | unknown hs hn =>
    simp only [List.mem_cons, List.not_mem_nil, or_false, not_or] at hn
    have htag : Tag.ofName name = .other name := by simp [Tag.ofName, hn]
    exact ⟨p, by simp [htag, enter, hs], rfl⟩
  | inherited hf hc ht =>
    cases hformats : p.formats with
    | nil =>
      have hout := hp.formats_nil hformats
      rw [ht] at hout
      cases hout
    | cons outer rest =>
      refine ⟨{ p with formats := outer :: p.formats }, ?_, ?_⟩
      · have hfont : p.formatPart attributes .font (resolveBy .font c.fonts) Format.font = .ok outer.font := by
          rw [formatPart, FormatPart.name, hf, hformats]
        have hcolor : p.formatPart attributes .color readColor Format.color = .ok outer.color := by
          rw [formatPart, FormatPart.name, hc, hformats]
        have htag : Tag.ofName "text" = .text := by simp [Tag.ofName]
        rw [htag, enter, enterText, hfont, hcolor]
        rfl
      · rw [view, view, hformats]
        rfl
  | @met _ clause hl ha hv =>
    refine ⟨{ p with conditions := true :: p.conditions }, ?_, ?_⟩
    · have htag : Tag.ofName "if" = .condition := by simp [Tag.ofName]
      have hclause : attributes.required "if" "clause" = .ok clause := by rw [Attributes.required, hl]
      have hanswer : resolveBy .condition c.conditions clause = .ok true := mapError_eq_ok.mpr ha
      rw [htag, enter, enterCondition, hclause]
      change (resolveBy .condition c.conditions clause >>= fun answer => _) = _
      rw [hanswer]
      rfl
    · exact Prod.ext rfl (Prod.ext rfl (hp.visible.trans hv).symm)

theorem visit_element_column (name : String) (attributes : Attributes) (children : List Node) (p : Pass) :
    (visit c (.element name attributes children) p).map column =
      (do visitAll c children (← p.enter c (.ofName name) attributes)).map column := by
  rw [visit]
  refine map_bind_congr fun q => ?_
  cases visitAll c children q with
  | error f => rfl
  | ok q => exact congrArg Except.ok (column_leave q _)

theorem visitAll_append (nodes more : List Node) (p : Pass) :
    visitAll c (nodes ++ more) p = (do visitAll c more (← visitAll c nodes p)) := by
  induction nodes generalizing p with
  | nil => rfl
  | cons node rest ih =>
    simp only [List.cons_append, visitAll, ih, bind_assoc]

/-- Two runs that end at the same column from passes that go by the same can be continued alike. -/
theorem bind_rest_congr {r r' : Except Failure Pass} {rest rest' : List Node} (hp : p.Within c around)
    (hview : p.view = p'.view) (hk : r.map column = r'.map column)
    (hr : ∀ q, r = .ok q → q = { p with column := q.column })
    (hr' : ∀ q, r' = .ok q → q = { p' with column := q.column })
    (hrest : ∀ q q' : Pass, q.Within c around → q.view = q'.view →
      (visitAll c rest q).map column = (visitAll c rest' q').map column) :
    (r >>= visitAll c rest).map column = (r' >>= visitAll c rest').map column := by
  refine bind_map_congr hk fun q q' hq hq' hcolumn => hrest q q' ?_ ?_
  · rw [hr q hq]
    exact hp.column q.column
  · rw [hr q hq, hr' q' hq']
    exact view_with_column hview hcolumn

/-- Two passes that go by the same end at one column, the one over all the elements and the other over what is left
without the neutral ones. -/
theorem visitAll_unwraps {nodes nodes' : List Node} (h : c.Unwraps around nodes nodes') {p p' : Pass}
    (hp : p.Within c around) (hview : p.view = p'.view) :
    (visitAll c nodes p).map column = (visitAll c nodes' p').map column := by
  -- On how the elements are dropped. Behind each node both passes are what they were but for the column, so that
  -- they still go by the same, whatever one of them had opened in between.
  induction h generalizing p p' with
  | nil => exact congrArg Except.ok (view_eq hview).1
  | text content h ih =>
    exact bind_rest_congr hp hview (text_column hview content) (fun q hq => text_balanced hq)
      (fun q hq => text_balanced hq) fun q q' hq hv => ih hq hv
  | aside h ih => exact ih hp hview
  | @keep around name attributes children children' rest rest' hin h ihin ih =>
    have helement : (visit c (.element name attributes children) p).map column =
        (visit c (.element name attributes children') p').map column := by
      rw [visit_element_column, visit_element_column]
      refine bind_map_congr (enter_view hview _ attributes) fun q q' hq _ hv => ?_
      exact ihin (enter_within hp hq) hv
    exact bind_rest_congr hp hview helement (fun q hq => visit_balanced _ hq) (fun q hq => visit_balanced _ hq)
      fun q q' hq hv => ih hq hv
  | @drop around name attributes children children' rest rest' hn hin h ihin ih =>
    have helement : (visit c (.element name attributes children) p).map column =
        (visitAll c children' p').map column := by
      obtain ⟨q, hq, hv⟩ := enter_neutral hn hp
      rw [visit_element_column, hq]
      exact ihin (enter_within hp hq) (hv.trans hview)
    rw [visitAll_append]
    exact bind_rest_congr hp hview helement (fun q hq => visit_balanced _ hq)
      (fun q hq => visitAll_balanced _ hq) fun q q' hq hv => ih hq hv

end Pass

namespace Compiler

variable {c : Compiler} {nodes nodes' : List Node}

theorem layout_unwraps (h : c.Unwraps [] nodes nodes') (maxWidth : Length) :
    c.layout nodes maxWidth = c.layout nodes' maxWidth := by
  have hw : Pass.Within { column := { maxWidth } } c [] := ⟨rfl, rfl, rfl⟩
  have hcolumn := Pass.visitAll_unwraps h hw rfl
  have hlayout : ∀ nodes, c.layout nodes maxWidth =
      ((Pass.visitAll c nodes { column := { maxWidth } }).map Pass.column).map Column.finish := by
    intro nodes
    rw [layout]
    cases Pass.visitAll c nodes { column := { maxWidth } } <;> rfl
  rw [hlayout, hlayout, hcolumn]

/-- Neutral elements may give way to their children, any number of them at once and wherever they are. The tree
that is left is laid out at each width as the whole tree is, or fails as it does. -/
theorem compile_without_wrappers (h : c.Unwraps [] nodes nodes') (maxWidth : Length) :
    c.layout nodes maxWidth = c.layout nodes' maxWidth ∧
    ∀ markup, Markup.parseFragment markup = .ok nodes → outcome (c.compile markup maxWidth) =
      (c.layout nodes' maxWidth).map fun k => (k.elements, ({} : Size).union k.size) := by
  have hl := layout_unwraps h maxWidth
  refine ⟨hl, fun markup hn => ?_⟩
  rw [compile_of_parse hn, hl]
  cases c.layout nodes' maxWidth <;> rfl

def swaddledMarkup : String :=
  "<text font=\"mono\" color=\"000000\">a<b><text>b <if clause=\"on\">c<br/></if></text></b>d</text><i/>"

def swaddledNodes : List Node :=
  [.element "text" [("font", "mono"), ("color", "000000")]
    [.text "a",
      .element "b" [] [.element "text" [] [.text "b ",
        .element "if" [("clause", "on")] [.text "c", .element "br" [] []]]],
      .text "d"],
    .element "i" [] []]

def unswaddledNodes : List Node :=
  [.element "text" [("font", "mono"), ("color", "000000")]
    [.text "a", .text "b ", .text "c", .element "br" [] [], .text "d"]]

theorem compile_without_wrappers_swaddled : Markup.parseFragment swaddledMarkup = .ok swaddledNodes ∧
    monospaced.Unwraps [] swaddledNodes unswaddledNodes ∧
    outcome (monospaced.compile swaddledMarkup (.ofPoints 20)) =
      (monospaced.layout unswaddledNodes (.ofPoints 20)).map fun k => (k.elements, ({} : Size).union k.size) := by
  have hn : Markup.parseFragment swaddledMarkup = .ok swaddledNodes := by cbv
  have h : monospaced.Unwraps [] swaddledNodes unswaddledNodes := by
    have hunknown : ∀ around name, name ∉ ["text", "if", "br", "img"] → monospaced.Neutral around name [] :=
      fun around name hname => .unknown rfl hname
    let around : List Opening := [⟨"b", []⟩, ⟨"text", [("font", "mono"), ("color", "000000")]⟩]
    let inner : List Node := [.text "c", .element "br" [] []]
    have hinner : monospaced.Unwraps (⟨"if", [("clause", "on")]⟩ :: ⟨"text", []⟩ :: around) inner inner :=
      .text "c" (.keep .nil .nil)
    have hif := Compiler.Unwraps.drop (.met rfl rfl (by decide)) hinner .nil
    have htext := Compiler.Unwraps.drop (.inherited rfl rfl (by decide)) (.text "b " hif) .nil
    have hb := Compiler.Unwraps.drop (hunknown _ "b" (by decide)) htext (.text "d" .nil)
    exact .keep (.text "a" hb) (.drop (hunknown _ "i" (by decide)) .nil .nil)
  exact ⟨hn, h, (compile_without_wrappers h _).2 _ hn⟩

end Compiler

end Galley
