import Mathlib
import Galley.Proofs.Reference
import Galley.Proofs.Traversal

/-! A column against the two phases. While items are pending their row is not known; every other row has its
place at once, and adding a piece settles at most one more. -/

namespace Galley

open Reference

def placed (before : List Item) : List Item → List Placed
  | [] => []
  | i :: rest => ⟨i.body, i.size, penAfter before⟩ :: placed (before ++ [i]) rest

theorem placed_append (before items more : List Item) :
    placed before (items ++ more) = placed before items ++ placed (before ++ items) more := by
  induction items generalizing before with
  | nil => simp [placed]
  | cons i items ih => simp [placed, ih]

theorem penAfter_append (items : List Item) (i : Item) :
    penAfter (items ++ [i]) = penAfter items + (i.size.width + i.advance) := by
  simp [penAfter]

theorem placed_isEmpty (before items : List Item) : (placed before items).isEmpty = items.isEmpty := by
  cases items <;> rfl

theorem placed_heights (before items : List Item) :
    (placed before items).map (·.size.height) = items.map (·.size.height) := by
  induction items generalizing before with
  | nil => rfl
  | cons i items ih => simp [placed, ih]

theorem placed_elements (y : Length) (before items : List Item) :
    (placed before items).map (fun i => (⟨i.body, i.size, ⟨i.x, y⟩⟩ : Element)) = spread y before items := by
  induction items generalizing before with
  | nil => rfl
  | cons i items ih => simp [placed, spread, ih]

theorem mem_placed {before items : List Item} {p : Placed} (h : p ∈ placed before items) :
    ∃ left i right, items = left ++ i :: right ∧ p = ⟨i.body, i.size, penAfter (before ++ left)⟩ := by
  induction items generalizing before with
  | nil => simp [placed] at h
  | cons j items ih =>
    rcases List.mem_cons.mp h with h | h
    · exact ⟨[], j, items, rfl, by simpa using h⟩
    · obtain ⟨left, i, right, hi, hp⟩ := ih h
      refine ⟨j :: left, i, right, by rw [hi, List.cons_append], ?_⟩
      simpa using hp

theorem line_height (top : Length) (items : List Item) :
    (Line.mk top (placed [] items)).height = lineHeight items := by
  rw [Line.height, lineHeight, placed_heights]

theorem line_elements (top : Length) (items : List Item) :
    (Line.mk top (placed [] items)).elements = (Row.line items).elements top := by
  rw [Line.elements, line_height, placed_elements]
  rfl

theorem line_width (top : Length) (items : List Item) : (Line.mk top (placed [] items)).width =
    (((Row.line items).elements top).map right).foldl max 0 := by
  rw [← line_elements, Line.width, Line.elements, List.map_map]
  rfl

namespace Reference

def Row.lines (top : Length) : Row → List Line
  | .line items => [⟨top, placed [] items⟩]
  | .blank _ => []

def lines (top : Length) : List Row → List Line
  | [] => []
  | row :: rest => row.lines top ++ lines (top + row.height) rest

theorem lines_append (top : Length) (rs ss : List Row) :
    lines top (rs ++ ss) = lines top rs ++ lines (bottom top rs) ss := by
  induction rs generalizing top with
  | nil => rfl
  | cons row rs ih =>
    simp only [List.cons_append, lines, ih, List.append_assoc]
    rfl

theorem lines_elements (top : Length) (rs : List Row) :
    (lines top rs).flatMap Line.elements = elements top rs := by
  induction rs generalizing top with
  | nil => rfl
  | cons row rs ih =>
    have hrow : (row.lines top).flatMap Line.elements = row.elements top := by
      cases row with
      | line items => simp only [Row.lines, List.flatMap_singleton, line_elements]
      | blank spacing => rfl
    simp only [lines, elements, List.flatMap_append, hrow, ih]

end Reference

theorem foldl_max (a b : Length) (ls : List Length) : ls.foldl max (max a b) = max a (ls.foldl max b) :=
  List.foldl_assoc

namespace Column

/-- The items of `line` are pending, set from the start of the open line. -/
structure Holds (k : Column) (line : List Item) : Prop where
  pending : k.pending.reverse = placed [] line
  pen : k.pen = penAfter line
  widest : 0 ≤ k.widest

/-- One column is another with more rows settled. -/
structure Adds (k k' : Column) (rows : List Row) : Prop where
  lines : k'.lines = k.lines ++ Reference.lines k.top rows
  top : k'.top = bottom k.top rows
  height : k'.height = bottom k.height rows
  widest : k'.widest = ((Reference.elements k.top rows).map right).foldl max k.widest
  maxWidth : k'.maxWidth = k.maxWidth

variable {k k' k'' : Column} {line : List Item}

theorem Holds.isEmpty (h : k.Holds line) : k.pending.isEmpty = line.isEmpty := by
  rw [← placed_isEmpty [] line, ← h.pending, List.isEmpty_reverse]

theorem Adds.refl (k : Column) : Adds k k [] :=
  ⟨(List.append_nil _).symm, rfl, rfl, rfl, rfl⟩

theorem Adds.elements {rs : List Row} (h : Adds k k' rs) :
    k'.elements = k.elements ++ Reference.elements k.top rs := by
  rw [Column.elements, h.lines, List.flatMap_append, lines_elements]
  rfl

theorem Adds.trans {rs ss : List Row} (h : Adds k k' rs) (h' : Adds k' k'' ss) :
    Adds k k'' (rs ++ ss) where
  lines := by rw [h'.lines, h.lines, h.top, lines_append, List.append_assoc]
  top := by rw [h'.top, h.top, bottom_append]
  height := by rw [h'.height, h.height, bottom_append]
  widest := by rw [h'.widest, h.widest, h.top, elements_append, List.map_append, List.foldl_append]
  maxWidth := h'.maxWidth.trans h.maxWidth

theorem finishLine_adds (h : k.Holds line) : Adds k k.finishLine [.line line] where
  lines := by
    simp only [finishLine, Column.lines, List.reverse_cons, h.pending]
    rfl
  top := by
    simp only [finishLine, h.pending, line_height]
    rfl
  height := by
    simp only [finishLine, h.pending, line_height]
    rfl
  widest := by
    have hm : max k.widest 0 = k.widest := max_eq_left h.widest
    simp only [finishLine, h.pending, line_width, Reference.elements, List.append_nil]
    rw [← foldl_max, hm]
  maxWidth := rfl

theorem finishLine_holds (h : k.Holds line) : k.finishLine.Holds [] :=
  ⟨rfl, rfl, h.widest.trans (le_max_left _ _)⟩

theorem place_holds (h : k.Holds line) (i : Item) (ho : k.overflows i.size.width = false) :
    (k.place i.body i.size i.advance).Holds (line ++ [i]) := by
  simp only [place, ho, Bool.false_eq_true, if_false]
  refine ⟨?_, ?_, h.widest⟩
  · simp only [List.reverse_cons, h.pending, h.pen, placed_append, placed, List.nil_append]
  · simp only [h.pen, penAfter_append]

theorem place_adds (k : Column) (i : Item) (ho : k.overflows i.size.width = false) :
    Adds k (k.place i.body i.size i.advance) [] := by
  simp only [place, ho, Bool.false_eq_true, if_false]
  exact ⟨(List.append_nil _).symm, rfl, rfl, rfl, rfl⟩

theorem place_of_overflow {i : Item} (ho : k.overflows i.size.width = true) :
    k.place i.body i.size i.advance = k.finishLine.place i.body i.size i.advance := by
  have hn : k.finishLine.overflows i.size.width = false := rfl
  simp only [place, ho, hn, if_true, Bool.false_eq_true, if_false]

theorem Holds.overflows (h : k.Holds line) (width : Length) : k.overflows width =
    (!line.isEmpty && k.maxWidth < penAfter line + width) := by
  rw [Column.overflows, h.isEmpty, h.pen]

/-- A piece settles the rows that the two phases settle by it, and leaves the rest of its line pending. -/
theorem add_spec (h : k.Holds line) (piece : Piece) : ∃ settled line',
    Adds k (k.add piece) settled ∧ (k.add piece).Holds line' ∧
    ∀ rest, rowsFrom k.maxWidth line (piece :: rest) = settled ++ rowsFrom k.maxWidth line' rest := by
  cases piece with
  | item i =>
    have hw := h.overflows i.size.width
    cases ho : k.overflows i.size.width with
    | true =>
      -- The line before the item is settled, and the item is pending on the next one.
      refine ⟨[.line line], [i], ?_, ?_, fun rest => ?_⟩
      · rw [add, place_of_overflow ho]
        exact (finishLine_adds h).trans (place_adds _ i rfl)
      · rw [add, place_of_overflow ho]
        exact place_holds (finishLine_holds h) i rfl
      · rw [rowsFrom_item, ← hw, ho]
        rfl
    | false =>
      refine ⟨[], line ++ [i], place_adds k i ho, place_holds h i ho, fun rest => ?_⟩
      rw [rowsFrom_item, ← hw, ho]
      rfl
  | lineBreak spacing =>
    have hr := rowsFrom_lineBreak k.maxWidth line spacing
    cases hp : k.pending.isEmpty with
    | false =>
      have ha : k.add (.lineBreak spacing) = k.finishLine := by simp [add, hp]
      rw [ha]
      refine ⟨[.line line], [], finishLine_adds h, finishLine_holds h, fun rest => ?_⟩
      rw [hr, ← h.isEmpty, hp]
      rfl
    | true =>
      have hl : line = [] := by simpa [h.isEmpty] using hp
      subst hl
      cases spacing with
      | none =>
        have ha : k.add (.lineBreak none) = k := by simp [add, hp]
        rw [ha]
        exact ⟨[], [], Adds.refl k, h, hr⟩
      | some spacing =>
        have ha : k.add (.lineBreak (some spacing)) = k.leaveBlank spacing := by simp [add, hp]
        rw [ha]
        exact ⟨[.blank spacing], [], ⟨(List.append_nil _).symm, rfl, rfl, rfl, rfl⟩,
          ⟨h.pending, rfl, h.widest⟩, hr⟩

theorem finish_spec (h : k.Holds line) : Adds k k.finish (rowsFrom k.maxWidth line []) := by
  rw [finish, rowsFrom_nil, h.isEmpty]
  cases hl : line.isEmpty with
  | false => exact finishLine_adds h
  | true => exact Adds.refl k

theorem addAll_spec (h : k.Holds line) (pieces : List Piece) :
    Adds k (k.addAll pieces).finish (rowsFrom k.maxWidth line pieces) := by
  induction pieces generalizing k line with
  | nil => exact finish_spec h
  | cons piece rest ih =>
    obtain ⟨settled, line', ha, hh, hr⟩ := add_spec h piece
    have hrest := ih hh
    rw [ha.maxWidth] at hrest
    rw [hr rest]
    exact ha.trans hrest

theorem set_adds (maxWidth : Length) (pieces : List Piece) :
    Adds { maxWidth } (set maxWidth pieces) (rows maxWidth pieces) := by
  have hh : Holds { maxWidth } [] := ⟨rfl, rfl, le_rfl⟩
  rw [rows_eq_rowsFrom]
  exact addAll_spec hh pieces

theorem set_lines (maxWidth : Length) (pieces : List Piece) :
    (set maxWidth pieces).lines = Reference.lines 0 (rows maxWidth pieces) :=
  (set_adds maxWidth pieces).lines

theorem set_spec (maxWidth : Length) (pieces : List Piece) :
    (set maxWidth pieces).elements = Reference.elements 0 (rows maxWidth pieces) ∧
    (set maxWidth pieces).size = Reference.size (rows maxWidth pieces) := by
  have ha := set_adds maxWidth pieces
  constructor
  · rw [ha.elements]
    rfl
  · rw [Column.size, ha.widest, ha.height]
    rfl

end Column

namespace Compiler

section

variable {c : Compiler} {nodes : List Markup.Node} {maxWidth : Length} {k : Column}
  (h : c.layout nodes maxWidth = .ok k)

include h

theorem layout_lines : k.lines = lines 0 (rows maxWidth (c.stream nodes)) := by
  rw [layout_eq_ok h, Column.set_lines]

theorem layout_elements : k.elements = elements 0 (rows maxWidth (c.stream nodes)) := by
  rw [layout_eq_ok h, (Column.set_spec _ _).1]

theorem layout_size : k.size = size (rows maxWidth (c.stream nodes)) := by
  rw [layout_eq_ok h, (Column.set_spec _ _).2]

end

/-- A fragment that is laid out has the rows of its stream, one below the other. -/
theorem fragment_eq_reference {c : Compiler} {markup : String} {nodes : List Markup.Node}
    {maxWidth : Length} {out : Compiled} (hn : Markup.parseFragment markup = .ok nodes)
    (ho : c.fragment markup maxWidth = .ok out) :
    out.elements = elements 0 (rows maxWidth (c.stream nodes)) ∧
    out.size = size (rows maxWidth (c.stream nodes)) := by
  rw [fragment_of_parse hn] at ho
  obtain ⟨k, hk, ho⟩ := bind_eq_ok ho
  cases ho
  have hs := Column.set_spec maxWidth (c.stream nodes)
  rw [← layout_eq_ok hk] at hs
  exact hs

def monospaced : Compiler where
  fonts name :=
    if name = "mono" then
      .ok ⟨"mono", fun text => .ok ⟨.ofPoints (6 * text.toList.length), .ofPoints 10⟩, .ofPoints 12⟩
    else .error (.unregisteredFont name)
  images name := if name = "dot" then .ok ⟨"dot", 3, 5, none⟩ else .error (.asset (.unregisteredImage name))
  conditions name :=
    if name = "on" then .ok true else if name = "off" then .ok false else .error (.unknownCondition name)
  strict := false

def wrappedMarkup : String :=
  "<text font=\"mono\" color=\"000000\">a bb ccc<br/><br/><img src=\"dot\"/></text>"

def wrappedNodes : List Markup.Node :=
  [.element "text" [("font", "mono"), ("color", "000000")]
    [.text "a bb ccc", .element "br" [] [], .element "br" [] [], .element "img" [("src", "dot")] []]]

theorem wrapped_parses : Markup.parseFragment wrappedMarkup = .ok wrappedNodes := by cbv

theorem wrapped_on_three_lines :
    ∃ k, monospaced.layout wrappedNodes (.ofPoints 30) = .ok k ∧ k.lines.length = 3 := by
  have hcount : (monospaced.layout wrappedNodes (.ofPoints 30)).toOption.map (·.lines.length) = some 3 := by
    decide +kernel
  obtain ⟨k, hk, hlen⟩ := Option.map_eq_some_iff.mp hcount
  exact ⟨k, toOption_eq_some.mp hk, hlen⟩

theorem fragment_eq_reference_wrapped : Markup.parseFragment wrappedMarkup = .ok wrappedNodes ∧
    ∃ out, monospaced.fragment wrappedMarkup (.ofPoints 30) = .ok out ∧
      out.elements = elements 0 (rows (.ofPoints 30) (monospaced.stream wrappedNodes)) ∧
      out.size = size (rows (.ofPoints 30) (monospaced.stream wrappedNodes)) := by
  have hn := wrapped_parses
  have hf : failure? (monospaced.layout wrappedNodes (.ofPoints 30)) = none := by decide +kernel
  obtain ⟨k, hk⟩ := failure?_eq_none.mp hf
  have ho : monospaced.fragment wrappedMarkup (.ofPoints 30) = .ok ⟨k.elements, k.size, wrappedMarkup⟩ := by
    rw [fragment_of_parse hn, hk]
    rfl
  exact ⟨hn, _, ho, fragment_eq_reference hn ho⟩

end Compiler

end Galley
