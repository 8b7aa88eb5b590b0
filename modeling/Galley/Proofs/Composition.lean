import Mathlib
import Galley.Proofs.Arrangement

/-! What a break separates. Behind a break nothing is left of what stood before it but the height that is
used up, so two fragments with a break between them are the two layouts, one below the other. -/

namespace Galley

open Markup (Node)
open Reference

def Element.lowered (e : Element) (distance : Length) : Element :=
  { e with position := ⟨e.position.x, e.position.y + distance⟩ }

namespace Reference

variable {top top' distance : Length} {rs ss : List Row}

theorem rows_break (maxWidth : Length) (pieces more : List Piece) :
    rows maxWidth (pieces ++ .lineBreak none :: more) = rows maxWidth pieces ++ rows maxWidth more := by
  obtain ⟨settled, line, hp, hm⟩ := rows_append maxWidth pieces
  rw [hm, rowsFrom_lineBreak, hp, rows_eq_rowsFrom maxWidth more, List.append_assoc]
  rfl

theorem spread_lowered (y : Length) (before items : List Item) :
    spread (y + distance) before items = (spread y before items).map (·.lowered distance) := by
  induction items generalizing before with
  | nil => rfl
  | cons i items ih =>
    rw [spread, spread, List.map_cons, ih]
    rfl

/-- A row that is set lower by some distance has its elements lower by that distance. -/
theorem row_elements_lowered {row : Row} (hd : top'.millis = top.millis + distance.millis)
    (hx : top.Exact row.height) : row.elements top' = (row.elements top).map (·.lowered distance) := by
  cases row with
  | blank spacing => rfl
  | line items =>
    have hm := Length.millis_middle (lineHeight_nonneg items) hx
    have hy : top' + (lineHeight items).half = top + (lineHeight items).half + distance := by
      refine congrArg Length.ofMillis ?_
      rw [hm, hd]
      omega
    rw [Row.elements, Row.elements, hy, spread_lowered]

theorem rows_lowered (hd : top'.millis = top.millis + distance.millis) (hx : Exact top rs)
    (hx' : Exact top' rs) : elements top' rs = (elements top rs).map (·.lowered distance) ∧
      (bottom top' rs).millis = (bottom top rs).millis + distance.millis := by
  induction rs generalizing top top' with
  | nil => exact ⟨rfl, hd⟩
  | cons row rs ih =>
    have hnext : (top' + row.height).millis = (top + row.height).millis + distance.millis := by
      have h := hx.1
      have h' := hx'.1
      rw [Length.Exact] at h h'
      omega
    obtain ⟨helements, hbottom⟩ := ih hnext hx.2 hx'.2
    refine ⟨?_, hbottom⟩
    rw [elements, elements, row_elements_lowered hd hx.1, helements, List.map_append]

theorem exact_append (h : Exact top (rs ++ ss)) : Exact (bottom top rs) ss := by
  induction rs generalizing top with
  | nil => exact h
  | cons row rs ih => exact ih h.2

theorem right_lowered (es : List Element) :
    (es.map (·.lowered distance)).map right = es.map right := by
  rw [List.map_map]
  rfl

/-- Rows below others are the rows by themselves, lower by the height of those. -/
theorem stacked (hss : Exact 0 ss) (h : Exact 0 (rs ++ ss)) :
    elements 0 (rs ++ ss) = elements 0 rs ++ (elements 0 ss).map (·.lowered (size rs).height) ∧
    size (rs ++ ss) = ⟨max (size rs).width (size ss).width, (size rs).height + (size ss).height⟩ := by
  have hd : (bottom 0 rs).millis = (0 : Length).millis + (bottom 0 rs).millis := by
    rw [Length.millis_zero, Int.zero_add]
  obtain ⟨helements, hbottom⟩ := rows_lowered hd hss (exact_append h)
  have he : elements 0 (rs ++ ss) = elements 0 rs ++ (elements 0 ss).map (·.lowered (bottom 0 rs)) := by
    rw [elements_append, helements]
  have hwidth : ((elements 0 (rs ++ ss)).map right).foldl max 0 =
      max (((elements 0 rs).map right).foldl max 0) (((elements 0 ss).map right).foldl max 0) := by
    have hzero : max (((elements 0 rs).map right).foldl max 0) 0 = ((elements 0 rs).map right).foldl max 0 :=
      max_eq_left (Length.init_le_foldl_max _ _)
    rw [he, List.map_append, right_lowered, List.foldl_append, ← foldl_max, hzero]
  have hheight : bottom 0 rs + bottom 0 ss = bottom 0 (rs ++ ss) := by
    refine (snapped_bottom Length.snapped_zero).add_eq ?_
    rw [bottom_append, hbottom, Int.add_comm]
  refine ⟨he, ?_⟩
  rw [size, hwidth, ← hheight]
  rfl

end Reference

namespace Compiler

variable {c : Compiler} {before : List Site} {nodes more : List Node} {maxWidth : Length} {k : Column}

theorem isFresh_behind_break {s : Site} (hs : s.isBreak = true) (ss earlier : List Site) :
    c.isFresh (ss ++ s :: earlier) = c.isFresh ss := by
  induction ss with
  | nil => rw [List.nil_append, isFresh_cons, hs, Bool.true_or]; rfl
  | cons t ss ih => rw [List.cons_append, isFresh_cons, isFresh_cons, ih]

theorem offence_behind_break {s : Site} (hs : s.isBreak = true) (ss earlier : List Site) (t : Site) :
    c.offence (ss ++ s :: earlier) t = c.offence ss t := by
  obtain ⟨around, node⟩ := t
  cases node with
  | text content => rfl
  | aside => rfl
  | element name attributes children => simp only [offence, isFresh_behind_break hs]

theorem firstOffence_behind_break {s : Site} (hs : s.isBreak = true) (ss earlier ts : List Site) :
    c.firstOffence (ss ++ s :: earlier) ts = c.firstOffence ss ts := by
  induction ts generalizing ss with
  | nil => rfl
  | cons t ts ih => rw [firstOffence, firstOffence, offence_behind_break hs, ← List.cons_append, ih]

def breakNode : Node := .element "br" [] []

theorem stream_break (c : Compiler) (nodes more : List Node) :
    c.stream (nodes ++ breakNode :: more) = c.stream nodes ++ .lineBreak none :: c.stream more := by
  rw [stream_append]
  rfl

theorem firstOffence_break (h : c.layout nodes maxWidth = .ok k)
    (hshown : c.isFresh (sitesOfAll [] nodes).reverse = false) (more : List Node) :
    c.firstOffence [] (sitesOfAll [] (nodes ++ breakNode :: more)) =
      c.firstOffence [] (sitesOfAll [] more) := by
  have hnodes := firstOffence_of_layout h
  have hbreak : c.offence (sitesOfAll [] nodes).reverse ⟨[], breakNode⟩ = none := by
    rw [breakNode, offence_break, hshown]
    rfl
  have hsites : sitesOfAll [] (nodes ++ breakNode :: more) =
      sitesOfAll [] nodes ++ ⟨[], breakNode⟩ :: sitesOfAll [] more := sitesOfAll_append _ _ _
  rw [hsites, Follows.firstOffence_append, hnodes, Option.none_or, List.append_nil, firstOffence, hbreak,
    Option.none_or]
  exact firstOffence_behind_break rfl [] _ _

/-- Behind a break that ends an open line a fragment is laid out as by itself, below what there is. Of all
sums of lengths only those of the tops of lines must not be cut off. -/
theorem layout_break_composes (h : c.layout nodes maxWidth = .ok k)
    (hshown : c.isFresh (sitesOfAll [] nodes).reverse = false) :
    (∀ f, c.layout (nodes ++ breakNode :: more) maxWidth = .error f ↔ c.layout more maxWidth = .error f) ∧
    ∀ below, c.layout more maxWidth = .ok below → Exact 0 (rows maxWidth (c.stream more)) →
      Exact 0 (rows maxWidth (c.stream (nodes ++ breakNode :: more))) →
      ∃ both, c.layout (nodes ++ breakNode :: more) maxWidth = .ok both ∧
        both.elements = k.elements ++ below.elements.map (·.lowered k.size.height) ∧
        both.size = ⟨max k.size.width below.size.width, k.size.height + below.size.height⟩ := by
  have hfail : ∀ f, c.layout (nodes ++ breakNode :: more) maxWidth = .error f ↔
      c.layout more maxWidth = .error f := by
    intro f
    rw [layout_eq_error, layout_eq_error, firstOffence_break h hshown]
  refine ⟨hfail, fun below hbelow hmore hboth => ?_⟩
  cases hk : c.layout (nodes ++ breakNode :: more) maxWidth with
  | error f =>
    have hf := (hfail f).mp hk
    rw [hbelow] at hf
    cases hf
  | ok both =>
    rw [stream_break, rows_break] at hboth
    obtain ⟨he, hs⟩ := stacked hmore hboth
    refine ⟨both, rfl, ?_, ?_⟩
    · rw [layout_elements hk, stream_break, rows_break, he, layout_elements h, layout_elements hbelow,
        layout_size h]
    · rw [layout_size hk, stream_break, rows_break, hs, layout_size h, layout_size hbelow]

theorem layout_break_composes_wrapped : ∃ k both : Column,
    monospaced.layout wrappedNodes (.ofPoints 30) = .ok k ∧
    monospaced.isFresh (sitesOfAll [] wrappedNodes).reverse = false ∧
    Exact 0 (rows (.ofPoints 30) (monospaced.stream wrappedNodes)) ∧
    Exact 0 (rows (.ofPoints 30) (monospaced.stream (wrappedNodes ++ breakNode :: wrappedNodes))) ∧
    monospaced.layout (wrappedNodes ++ breakNode :: wrappedNodes) (.ofPoints 30) = .ok both ∧
    both.elements = k.elements ++ k.elements.map (·.lowered k.size.height) ∧
    both.size = ⟨max k.size.width k.size.width, k.size.height + k.size.height⟩ := by
  obtain ⟨k, hk, _⟩ := wrapped_on_three_lines
  have hshown : monospaced.isFresh (sitesOfAll [] wrappedNodes).reverse = false := by decide +kernel
  have hx : Exact 0 (rows (.ofPoints 30) (monospaced.stream wrappedNodes)) := by decide +kernel
  have hx' : Exact 0 (rows (.ofPoints 30)
      (monospaced.stream (wrappedNodes ++ breakNode :: wrappedNodes))) := by decide +kernel
  obtain ⟨both, hb, he, hs⟩ := (layout_break_composes hk hshown).2 k hk hx hx'
  exact ⟨k, both, hk, hshown, hx, hx', hb, he, hs⟩

end Compiler

end Galley
