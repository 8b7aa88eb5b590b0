import Mathlib
import Galley.Proofs.Simulation

/-! More content behind a fragment. What is settled stays as it is; the line that is still open may be joined
by further items, and then it is no lower than before and its middle no higher. -/

namespace Galley

/-- The same element at the same place of its line, with the middle of the line no higher on the page. -/
structure Element.Sinks (e e' : Element) : Prop where
  body : e'.body = e.body
  size : e'.size = e.size
  x : e'.position.x = e.position.x
  y : e.position.y ≤ e'.position.y

theorem Element.Sinks.right {e e' : Element} (h : e.Sinks e') : Reference.right e' = Reference.right e := by
  rw [Reference.right, Reference.right, h.x, h.size]

theorem Element.rights_of_sinks {es es' : List Element} (h : List.Forall₂ Element.Sinks es es') :
    es'.map Reference.right = es.map Reference.right := by
  induction h with
  | nil => rfl
  | cons h _ ih => rw [List.map_cons, List.map_cons, h.right, ih]

namespace Line

variable (l : Line) (added : List Placed)

def extend : Line := { l with items := l.items ++ added }

theorem extend_nil : l.extend [] = l := by
  rw [extend, List.append_nil]

theorem height_le_extend : l.height ≤ (l.extend added).height := by
  have hh : (l.extend added).height = (added.map (·.size.height)).foldl max l.height := by
    simp only [height, extend, List.map_append, List.foldl_append]
  rw [hh]
  exact Length.init_le_foldl_max _ _

/-- The elements of a line come first on the extended line, all of them lower by the same amount. -/
theorem elements_extend : ∃ held gained, (l.extend added).elements = held ++ gained ∧
    List.Forall₂ Element.Sinks l.elements held ∧ (added = [] → held = l.elements) := by
  let y := l.top + (l.extend added).height.half
  let set (p : Placed) : Element := ⟨p.body, p.size, ⟨p.x, y⟩⟩
  have hy : l.top + l.height.half ≤ y :=
    Length.add_le_add le_rfl (Length.half_mono (l.height_le_extend added))
  refine ⟨l.items.map set, added.map set, List.map_append, ?_, ?_⟩
  · rw [elements, List.forall₂_map_left_iff, List.forall₂_map_right_iff, List.forall₂_same]
    intro p _
    exact ⟨rfl, rfl, rfl, hy⟩
  · intro he
    subst he
    simp only [set, y, extend_nil]
    rfl

end Line

namespace Reference

theorem lines_rows_append {maxWidth : Length} {pieces : List Piece} {earlier : List Line} {last : Line}
    (h : lines 0 (rows maxWidth pieces) = earlier ++ [last]) (more : List Piece) :
    ∃ added later, lines 0 (rows maxWidth (pieces ++ more)) = earlier ++ last.extend added :: later := by
  obtain ⟨settled, line, hp, hm⟩ := rows_append maxWidth pieces
  have hmore := hm more
  cases line with
  | nil =>
    -- No line is open, so the last one is settled.
    refine ⟨[], lines (bottom 0 settled) (rowsFrom maxWidth [] more), ?_⟩
    rw [List.isEmpty_nil, if_pos rfl, List.append_nil] at hp
    rw [hmore, lines_append, ← hp, h, Line.extend_nil, List.append_assoc, List.singleton_append]
  | cons i rest =>
    let line := i :: rest
    let top := bottom 0 settled
    have hlast : lines top [.line line] = [⟨top, placed [] line⟩] := rfl
    rw [hp, List.isEmpty_cons, if_neg Bool.false_ne_true, lines_append, hlast] at h
    obtain ⟨hearlier, hl⟩ := List.append_inj' h rfl
    obtain rfl := List.singleton_inj.mp hl
    obtain ⟨added, rs, hk⟩ := rowsFrom_keeps (List.cons_ne_nil i rest) maxWidth more
    have hnext : lines top (.line (line ++ added) :: rs) =
        ⟨top, placed [] (line ++ added)⟩ :: lines (top + lineHeight (line ++ added)) rs := rfl
    refine ⟨placed line added, lines (top + lineHeight (line ++ added)) rs, ?_⟩
    rw [hmore, hk, lines_append, hnext, hearlier, placed_append, List.nil_append]
    rfl

end Reference

namespace Compiler

open Reference

variable {c : Compiler} {nodes more : List Markup.Node} {maxWidth : Length} {k k' : Column}

theorem layout_width (h : c.layout nodes maxWidth = .ok k) :
    k.size.width = (k.elements.map right).foldl max 0 := by
  rw [layout_size h, layout_elements h]
  rfl

/-- With more content behind it a fragment keeps its elements. Those of its last line may move down, and
only where that line is joined by further ones. -/
theorem layout_append_keeps (h : c.layout nodes maxWidth = .ok k)
    (h' : c.layout (nodes ++ more) maxWidth = .ok k') :
    (∀ earlier last, k.lines = earlier ++ [last] → ∃ added later held rest,
      k'.lines = earlier ++ last.extend added :: later ∧
      k'.elements = earlier.flatMap Line.elements ++ held ++ rest ∧
      List.Forall₂ Element.Sinks last.elements held ∧ (added = [] → held = last.elements)) ∧
    k.size.width ≤ k'.size.width := by
  have hkeeps : ∀ earlier last, k.lines = earlier ++ [last] → ∃ added later held rest,
      k'.lines = earlier ++ last.extend added :: later ∧
      k'.elements = earlier.flatMap Line.elements ++ held ++ rest ∧
      List.Forall₂ Element.Sinks last.elements held ∧ (added = [] → held = last.elements) := by
    intro earlier last hlines
    rw [layout_lines h] at hlines
    obtain ⟨added, later, hk⟩ := lines_rows_append hlines (c.stream more)
    rw [← stream_append, ← layout_lines h'] at hk
    obtain ⟨held, gained, he, hsinks, hsame⟩ := last.elements_extend added
    refine ⟨added, later, held, gained ++ later.flatMap Line.elements, hk, ?_, hsinks, hsame⟩
    rw [Column.elements, hk, List.flatMap_append, List.flatMap_cons, he]
    simp only [List.append_assoc]
  refine ⟨hkeeps, ?_⟩
  -- The right edges of a fragment are the first of those it has with more behind it.
  have hrights : ∃ rest, k'.elements.map right = k.elements.map right ++ rest := by
    rcases List.eq_nil_or_concat k.lines with hnil | ⟨earlier, last, hlines⟩
    · exact ⟨k'.elements.map right, by simp [Column.elements, hnil]⟩
    · rw [List.concat_eq_append] at hlines
      obtain ⟨_, _, held, rest, _, hk', hsinks, _⟩ := hkeeps earlier last hlines
      refine ⟨rest.map right, ?_⟩
      rw [hk', Column.elements, hlines, List.flatMap_append, List.flatMap_singleton, List.map_append,
        List.map_append, List.map_append, Element.rights_of_sinks hsinks]
  obtain ⟨rest, hrest⟩ := hrights
  rw [layout_width h, layout_width h', hrest, List.foldl_append]
  exact Length.init_le_foldl_max _ _

theorem layout_append_keeps_wrapped : ∃ k k' : Column,
    monospaced.layout wrappedNodes (.ofPoints 30) = .ok k ∧
    monospaced.layout (wrappedNodes ++ wrappedNodes) (.ofPoints 30) = .ok k' ∧
    ∃ earlier last added later, k.lines = earlier ++ [last] ∧ earlier.length = 2 ∧
      k'.lines = earlier ++ last.extend added :: later ∧ k.size.width ≤ k'.size.width := by
  obtain ⟨k, hk, hlen⟩ := wrapped_on_three_lines
  have hf' : failure? (monospaced.layout (wrappedNodes ++ wrappedNodes) (.ofPoints 30)) = none := by
    decide +kernel
  obtain ⟨k', hk'⟩ := failure?_eq_none.mp hf'
  obtain ⟨hkeeps, hwidth⟩ := layout_append_keeps hk hk'
  rcases List.eq_nil_or_concat k.lines with hnil | ⟨earlier, last, hlines⟩
  · simp [hnil] at hlen
  · rw [List.concat_eq_append] at hlines
    obtain ⟨added, later, _, _, hl, _⟩ := hkeeps earlier last hlines
    rw [hlines, List.length_append, List.length_singleton] at hlen
    exact ⟨k, k', hk, hk', earlier, last, added, later, hlines, by omega, hl, hwidth⟩

end Compiler

end Galley
