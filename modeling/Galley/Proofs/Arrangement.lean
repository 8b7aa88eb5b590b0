import Mathlib
import Galley.Proofs.Containment

/-! Where elements are to each other. On a line each one ends before the next begins, the lines are one
below the other, and a box keeps the middle of its line. So elements are in reading order and never overlap. -/

namespace Galley

open Reference

def Line.bottom (l : Line) : Length := l.top + l.height

namespace Element

def boxTop (e : Element) : Length := (topLeft e.position e.size).y

def boxBottom (e : Element) : Length := e.boxTop + e.size.height

def LeftOf (a b : Element) : Prop := a.position.y = b.position.y ∧ right a ≤ b.position.x

def Above (a b : Element) : Prop := a.position.y ≤ b.position.y ∧ a.boxBottom ≤ b.boxTop

/-- The gaps above and below a box within its line differ by at most a millipoint. -/
def CentredOn (e : Element) (l : Line) : Prop :=
  (e.boxTop.millis - l.top.millis - (l.bottom.millis - e.boxBottom.millis)).natAbs ≤ 1

end Element

/-- No top is cut off while rows are set one below the other. -/
def Reference.Exact (top : Length) : List Row → Prop
  | [] => True
  | row :: rest => top.Exact row.height ∧ Exact (top + row.height) rest

instance Reference.decideExact : (top : Length) → (rs : List Row) → Decidable (Exact top rs)
  | _, [] => isTrue trivial
  | top, row :: rest =>
    have := decideExact (top + row.height) rest
    inferInstanceAs (Decidable (_ ∧ _))

/-- A line of items that do not reach into each other, with its bottom not cut off. -/
structure Line.Regular (l : Line) : Prop where
  top : 0 ≤ l.top
  snapped : l.top.Snapped
  exact : l.top.Exact l.height
  heights : ∀ p ∈ l.items, 0 ≤ p.size.height
  ordered : l.items.Pairwise fun p q => p.x + p.size.width ≤ q.x

namespace Line

variable {l m : Line} {e : Element}

theorem mem_elements : e ∈ l.elements ↔
    ∃ p ∈ l.items, (⟨p.body, p.size, ⟨p.x, l.top + l.height.half⟩⟩ : Element) = e := by
  rw [elements, List.mem_map]

theorem height_nonneg (l : Line) : 0 ≤ l.height := Length.init_le_foldl_max _ _

theorem position_y (h : e ∈ l.elements) : e.position.y = l.top + l.height.half := by
  obtain ⟨p, _, rfl⟩ := mem_elements.mp h
  rfl

theorem height_le (h : e ∈ l.elements) : e.size.height ≤ l.height := by
  obtain ⟨p, hp, rfl⟩ := mem_elements.mp h
  exact Length.le_foldl_max (List.mem_map_of_mem hp)

theorem boxTop_eq (h : e ∈ l.elements) : e.boxTop = l.top + l.height.half - e.size.height.half := by
  rw [← position_y h]
  rfl

namespace Regular

theorem element_height (hl : l.Regular) (h : e ∈ l.elements) : 0 ≤ e.size.height := by
  obtain ⟨p, hp, rfl⟩ := mem_elements.mp h
  exact hl.heights p hp

theorem centredOn (hl : l.Regular) (h : e ∈ l.elements) : e.CentredOn l := by
  rw [Element.CentredOn, Element.boxBottom, boxTop_eq h]
  exact Length.box_gaps hl.top (hl.element_height h) (height_le h) hl.exact

theorem top_le_boxTop (hl : l.Regular) (h : e ∈ l.elements) : l.top ≤ e.boxTop := by
  rw [boxTop_eq h]
  exact Length.top_le_box hl.top (hl.element_height h) (height_le h) hl.exact hl.snapped

theorem boxBottom_le_bottom (hl : l.Regular) (h : e ∈ l.elements) : e.boxBottom ≤ l.bottom := by
  rw [Element.boxBottom, boxTop_eq h]
  exact (Length.box_within_line hl.top (hl.element_height h) (height_le h)).2

theorem pairwise_leftOf (hl : l.Regular) : l.elements.Pairwise Element.LeftOf := by
  rw [elements, List.pairwise_map]
  exact hl.ordered.imp fun h => ⟨rfl, h⟩

theorem above (hl : l.Regular) (hm : m.Regular) (h : l.bottom ≤ m.top) :
    ∀ a ∈ l.elements, ∀ b ∈ m.elements, a.Above b := by
  intro a ha b hb
  constructor
  · rw [position_y ha, position_y hb]
    calc l.top + l.height.half ≤ l.bottom := Length.add_half_le _ l.height_nonneg
      _ ≤ m.top := h
      _ ≤ m.top + m.height.half := Length.le_add hm.snapped (Length.half_nonneg m.height_nonneg)
  · calc a.boxBottom ≤ l.bottom := hl.boxBottom_le_bottom ha
      _ ≤ m.top := h
      _ ≤ b.boxTop := hm.top_le_boxTop hb

end Regular

end Line

theorem snapped_penAfter (items : List Item) : (penAfter items).Snapped := by
  cases items using List.reverseRecOn with
  | nil => exact Length.snapped_zero
  | append_singleton items i =>
    rw [penAfter_append]
    exact Length.snapped_add _ _

theorem penAfter_le_append {items more : List Item} (h : ∀ i ∈ more, i.Nonneg) :
    penAfter items ≤ penAfter (items ++ more) := by
  induction more using List.reverseRecOn with
  | nil => simp
  | append_singleton more i ih =>
    obtain ⟨hmore, hi⟩ := List.forall_mem_append.mp h
    have hi' := hi i (by simp)
    rw [← List.append_assoc, penAfter_append]
    exact (ih hmore).trans
      (Length.le_add (snapped_penAfter _) (Length.add_nonneg hi'.width hi'.advance))

theorem placed_ordered {before items : List Item} (h : ∀ i ∈ items, i.Nonneg) :
    (placed before items).Pairwise fun p q => p.x + p.size.width ≤ q.x := by
  induction items generalizing before with
  | nil => exact .nil
  | cons i items ih =>
    obtain ⟨hi, hitems⟩ := List.forall_mem_cons.mp h
    refine .cons (fun q hq => ?_) (ih hitems)
    obtain ⟨left, j, right, hj, rfl⟩ := mem_placed hq
    have hleft : ∀ j ∈ left, j.Nonneg := fun k hk => hitems k (by simp [hj, hk])
    calc penAfter before + i.size.width ≤ penAfter (before ++ [i]) := by
          rw [penAfter_append]
          exact Length.add_le_add_of_nonneg hi.advance
      _ ≤ penAfter (before ++ [i] ++ left) := penAfter_le_append hleft

namespace Reference

variable {rs : List Row} {top : Length}

theorem top_le_lines (h : ∀ r ∈ rs, r.Nonneg) (hs : top.Snapped) : ∀ l ∈ lines top rs, top ≤ l.top := by
  induction rs generalizing top with
  | nil => simp [lines]
  | cons row rs ih =>
    obtain ⟨hrow, hrs⟩ := List.forall_mem_cons.mp h
    refine List.forall_mem_append.mpr ⟨fun l hl => ?_, fun l hl => ?_⟩
    · cases row with
      | line items =>
        rw [List.mem_singleton.mp hl]
      | blank spacing => simp [Row.lines] at hl
    · exact (Length.le_add hs hrow.height).trans (ih hrs (Length.snapped_add _ _) l hl)

theorem lines_stacked (h : ∀ r ∈ rs, r.Nonneg) :
    (lines top rs).Pairwise fun l m => l.bottom ≤ m.top := by
  induction rs generalizing top with
  | nil => exact .nil
  | cons row rs ih =>
    obtain ⟨_, hrs⟩ := List.forall_mem_cons.mp h
    refine List.pairwise_append.mpr ⟨?_, ih hrs, fun l hl m hm => ?_⟩
    · cases row <;> simp [Row.lines]
    · cases row with
      | line items =>
        rw [List.mem_singleton.mp hl, Line.bottom, line_height]
        exact top_le_lines hrs (Length.snapped_add _ _) m hm
      | blank spacing => simp [Row.lines] at hl

theorem lines_regular (h : ∀ r ∈ rs, r.Nonneg) (ht : 0 ≤ top) (hs : top.Snapped) (hx : Exact top rs) :
    ∀ l ∈ lines top rs, l.Regular := by
  induction rs generalizing top with
  | nil => simp [lines]
  | cons row rs ih =>
    obtain ⟨hrow, hrs⟩ := List.forall_mem_cons.mp h
    refine List.forall_mem_append.mpr ⟨fun l hl => ?_,
      ih hrs (Length.add_nonneg ht hrow.height) (Length.snapped_add _ _) hx.2⟩
    cases row with
    | blank spacing => simp [Row.lines] at hl
    | line items =>
      rw [List.mem_singleton.mp hl]
      refine ⟨ht, hs, ?_, fun p hp => ?_, placed_ordered hrow⟩
      · rw [line_height]
        exact hx.1
      · obtain ⟨left, i, right, hi, rfl⟩ := mem_placed hp
        exact (hrow i (by simp [hi])).height

end Reference

namespace Compiler

variable {c : Compiler} {markup : String} {nodes : List Markup.Node} {maxWidth : Length} {out : Compiled}

/-- In the order of the elements each is left of the next on its line or above those of later lines, and in
the middle of its line. Of all sums of lengths only those of the tops of lines must not be cut off. -/
theorem compile_in_reading_order (hc : c.Nonneg) (hn : Markup.parseFragment markup = .ok nodes)
    (hx : Exact 0 (rows maxWidth (c.stream nodes))) (ho : c.compile markup maxWidth = .ok out) :
    ∃ k, c.layout nodes maxWidth = .ok k ∧ out.elements = k.lines.flatMap Line.elements ∧
      (∀ l ∈ k.lines, l.elements.Pairwise Element.LeftOf ∧ ∀ e ∈ l.elements, e.CentredOn l) ∧
      k.lines.Pairwise fun l m => ∀ a ∈ l.elements, ∀ b ∈ m.elements, a.Above b := by
  rw [compile_of_parse hn] at ho
  obtain ⟨k, hk, ho⟩ := bind_eq_ok ho
  cases ho
  have hrows : ∀ r ∈ rows maxWidth (c.stream nodes), r.Nonneg := rows_nonneg (hc.stream nodes)
  have hlines := layout_lines hk
  have hregular : ∀ l ∈ k.lines, l.Regular := by
    rw [hlines]
    exact lines_regular hrows le_rfl Length.snapped_zero hx
  refine ⟨k, hk, rfl, fun l hl => ⟨(hregular l hl).pairwise_leftOf, fun e => (hregular l hl).centredOn⟩, ?_⟩
  have hstacked : k.lines.Pairwise fun l m => l.bottom ≤ m.top := by
    rw [hlines]
    exact lines_stacked hrows
  exact hstacked.imp_of_mem fun hl hm h => (hregular _ hl).above (hregular _ hm) h

theorem compile_in_reading_order_wrapped : monospaced.Nonneg ∧
    Markup.parseFragment wrappedMarkup = .ok wrappedNodes ∧
    Exact 0 (rows (.ofPoints 30) (monospaced.stream wrappedNodes)) ∧
    ∃ out, ∃ k : Column, monospaced.compile wrappedMarkup (.ofPoints 30) = .ok out ∧
      k.lines.length = 3 ∧ out.elements = k.lines.flatMap Line.elements ∧
      (∀ l ∈ k.lines, l.elements.Pairwise Element.LeftOf ∧ ∀ e ∈ l.elements, e.CentredOn l) ∧
      k.lines.Pairwise fun l m => ∀ a ∈ l.elements, ∀ b ∈ m.elements, a.Above b := by
  have hx : Exact 0 (rows (.ofPoints 30) (monospaced.stream wrappedNodes)) := by decide +kernel
  have hf : failure? (monospaced.layout wrappedNodes (.ofPoints 30)) = none := by decide +kernel
  obtain ⟨k, hk⟩ := failure?_eq_none.mp hf
  have ho := compile_of_layout wrapped_parses hk
  obtain ⟨k', hk', he, hl, ha⟩ := compile_in_reading_order monospaced_nonneg wrapped_parses hx ho
  have hlines : (monospaced.layout wrappedNodes (.ofPoints 30)).toOption.map (·.lines.length) = some 3 := by
    decide +kernel
  rw [hk'] at hlines
  exact ⟨monospaced_nonneg, wrapped_parses, hx, _, k', ho, Option.some.inj hlines, he, hl, ha⟩

end Compiler

end Galley
