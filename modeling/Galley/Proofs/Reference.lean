import Mathlib.Data.List.Basic
import Galley.Proofs.Length
import Galley.Proofs.Stream

/-! Layout in two phases: a whole stream is cut into rows first, and the rows are set one below the other
afterwards. A column, which does both at once, comes to the same. -/

namespace Galley.Reference

structure Group where
  items : List Item
  spacing : Option Length

def groups : List Piece → List Group
  | [] => [⟨[], none⟩]
  | .lineBreak spacing :: rest => ⟨[], spacing⟩ :: groups rest
  | .item i :: rest =>
    match groups rest with
    | g :: more => { g with items := i :: g.items } :: more
    | [] => []

def penAfter (items : List Item) : Length := items.foldl (fun x i => x + (i.size.width + i.advance)) 0

/-- Cuts items into lines, the first of which begins with the items of `line`. -/
def wrap (maxWidth : Length) (line : List Item) : List Item → List (List Item)
  | [] => if line.isEmpty then [] else [line]
  | i :: rest =>
    if !line.isEmpty && maxWidth < penAfter line + i.size.width then line :: wrap maxWidth [i] rest
    else wrap maxWidth (line ++ [i]) rest

inductive Row where
  | line (items : List Item)
  | blank (spacing : Length)

def Group.rows (maxWidth : Length) (g : Group) : List Row :=
  if g.items.isEmpty then (g.spacing.map .blank).toList else (wrap maxWidth [] g.items).map .line

def rows (maxWidth : Length) (pieces : List Piece) : List Row :=
  (groups pieces).flatMap (Group.rows maxWidth)

def lineHeight (items : List Item) : Length := (items.map (·.size.height)).foldl max 0

def Row.height : Row → Length
  | .line items => lineHeight items
  | .blank spacing => spacing

def spread (y : Length) (before : List Item) : List Item → List Element
  | [] => []
  | i :: rest => ⟨i.body, i.size, ⟨penAfter before, y⟩⟩ :: spread y (before ++ [i]) rest

def Row.elements (top : Length) : Row → List Element
  | .line items => spread (top + (lineHeight items).half) [] items
  | .blank _ => []

def elements (top : Length) : List Row → List Element
  | [] => []
  | row :: rest => row.elements top ++ elements (top + row.height) rest

def bottom (top : Length) (rows : List Row) : Length := rows.foldl (fun top row => top + row.height) top

def right (e : Element) : Length := e.position.x + e.size.width

/-- Nothing but the items counts, and nothing left of the start of a line. -/
def size (rows : List Row) : Size := ⟨((elements 0 rows).map right).foldl max 0, bottom 0 rows⟩

theorem bottom_append (top : Length) (rs ss : List Row) :
    bottom top (rs ++ ss) = bottom (bottom top rs) ss := List.foldl_append

theorem elements_append (top : Length) (rs ss : List Row) :
    elements top (rs ++ ss) = elements top rs ++ elements (bottom top rs) ss := by
  induction rs generalizing top with
  | nil => rfl
  | cons row rs ih =>
    simp only [List.cons_append, elements, ih, List.append_assoc]
    rfl

def rowsFrom (maxWidth : Length) (line : List Item) (pieces : List Piece) : List Row :=
  match groups pieces with
  | g :: more =>
    (if line.isEmpty then g.rows maxWidth else (wrap maxWidth line g.items).map .line) ++
      more.flatMap (Group.rows maxWidth)
  | [] => []

theorem groups_ne_nil (pieces : List Piece) : groups pieces ≠ [] := by
  cases pieces with
  | nil => simp [groups]
  | cons piece rest =>
    cases piece with
    | lineBreak spacing => simp [groups]
    | item i =>
      have hn := groups_ne_nil rest
      rw [groups]
      split
      · simp
      · contradiction

theorem groups_item {rest : List Piece} {g : Group} {more : List Group} (h : groups rest = g :: more)
    (i : Item) : groups (.item i :: rest) = { g with items := i :: g.items } :: more := by
  simp [groups, h]

theorem rows_eq_rowsFrom (maxWidth : Length) (pieces : List Piece) :
    rows maxWidth pieces = rowsFrom maxWidth [] pieces := by
  rw [rows, rowsFrom]
  split
  · next g more he => simp [he]
  · next he => exact absurd he (groups_ne_nil pieces)

theorem rowsFrom_nil (maxWidth : Length) (line : List Item) :
    rowsFrom maxWidth line [] = if line.isEmpty then [] else [.line line] := by
  cases line <;> rfl

theorem rowsFrom_lineBreak (maxWidth : Length) (line : List Item) (spacing : Option Length)
    (rest : List Piece) : rowsFrom maxWidth line (.lineBreak spacing :: rest) =
      (if line.isEmpty then (spacing.map .blank).toList else [.line line]) ++ rowsFrom maxWidth [] rest := by
  rw [← rows_eq_rowsFrom]
  cases line <;> rfl

theorem rowsFrom_item (maxWidth : Length) (line : List Item) (i : Item) (rest : List Piece) :
    rowsFrom maxWidth line (.item i :: rest) =
      if !line.isEmpty && maxWidth < penAfter line + i.size.width then
        .line line :: rowsFrom maxWidth [i] rest
      else rowsFrom maxWidth (line ++ [i]) rest := by
  obtain ⟨g, more, he⟩ := List.exists_cons_of_ne_nil (groups_ne_nil rest)
  simp only [rowsFrom, groups_item he i, he]
  cases line with
  | nil => simp [Group.rows, wrap]
  | cons j line =>
    by_cases ho : maxWidth < penAfter (j :: line) + i.size.width
    · simp [wrap, ho]
    · simp [wrap, ho]

/-- What pieces settle, and the line they leave open, do not depend on what follows. -/
theorem rowsFrom_append (maxWidth : Length) (line : List Item) (pieces : List Piece) :
    ∃ settled line', ∀ rest,
      rowsFrom maxWidth line (pieces ++ rest) = settled ++ rowsFrom maxWidth line' rest := by
  induction pieces generalizing line with
  | nil => exact ⟨[], line, fun _ => rfl⟩
  | cons piece pieces ih =>
    cases piece with
    | item i =>
      by_cases ho : (!line.isEmpty && maxWidth < penAfter line + i.size.width) = true
      · obtain ⟨settled, line', h⟩ := ih [i]
        refine ⟨.line line :: settled, line', fun rest => ?_⟩
        rw [List.cons_append, rowsFrom_item, if_pos ho, h, List.cons_append]
      · obtain ⟨settled, line', h⟩ := ih (line ++ [i])
        refine ⟨settled, line', fun rest => ?_⟩
        rw [List.cons_append, rowsFrom_item, if_neg ho, h]
    | lineBreak spacing =>
      obtain ⟨settled, line', h⟩ := ih []
      refine ⟨(if line.isEmpty then (spacing.map .blank).toList else [.line line]) ++ settled, line',
        fun rest => ?_⟩
      rw [List.cons_append, rowsFrom_lineBreak, h, List.append_assoc]

theorem rows_append (maxWidth : Length) (pieces : List Piece) : ∃ settled line,
    rows maxWidth pieces = settled ++ (if line.isEmpty then [] else [.line line]) ∧
    ∀ more, rows maxWidth (pieces ++ more) = settled ++ rowsFrom maxWidth line more := by
  obtain ⟨settled, line, h⟩ := rowsFrom_append maxWidth [] pieces
  refine ⟨settled, line, ?_, fun more => by rw [rows_eq_rowsFrom, h]⟩
  rw [rows_eq_rowsFrom, ← rowsFrom_nil, ← h [], List.append_nil]

/-- A line that has items is kept as the start of the next line that is settled. -/
theorem rowsFrom_keeps {line : List Item} (hl : line ≠ []) (maxWidth : Length) (pieces : List Piece) :
    ∃ more rs, rowsFrom maxWidth line pieces = .line (line ++ more) :: rs := by
  induction pieces generalizing line with
  | nil => exact ⟨[], [], by simp [rowsFrom_nil, hl]⟩
  | cons piece rest ih =>
    cases piece with
    | lineBreak spacing => exact ⟨[], rowsFrom maxWidth [] rest, by simp [rowsFrom_lineBreak, hl]⟩
    | item i =>
      rw [rowsFrom_item]
      split
      · exact ⟨[], rowsFrom maxWidth [i] rest, by simp⟩
      · obtain ⟨more, rs, h⟩ := ih (show line ++ [i] ≠ [] by simp)
        exact ⟨i :: more, rs, by simpa using h⟩

theorem spread_append (y : Length) (before items more : List Item) :
    spread y before (items ++ more) = spread y before items ++ spread y (before ++ items) more := by
  induction items generalizing before with
  | nil => simp [spread]
  | cons i items ih => simp [spread, ih]

def Row.items : Row → List Item
  | .line items => items
  | .blank _ => []

theorem spread_content (y : Length) (before items : List Item) :
    (spread y before items).map Element.content = items.map Item.content := by
  induction items generalizing before with
  | nil => rfl
  | cons i items ih =>
    simp only [spread, List.map_cons, ih]
    rfl

theorem elements_content (top : Length) (rs : List Row) :
    (elements top rs).map Element.content = (rs.flatMap Row.items).map Item.content := by
  induction rs generalizing top with
  | nil => rfl
  | cons row rs ih =>
    have hrow : (row.elements top).map Element.content = row.items.map Item.content := by
      cases row with
      | line items => exact spread_content _ [] items
      | blank spacing => rfl
    simp only [elements, List.map_append, List.flatMap_cons, hrow, ih]

theorem rowsFrom_items (maxWidth : Length) (line : List Item) (pieces : List Piece) :
    (rowsFrom maxWidth line pieces).flatMap Row.items = line ++ pieces.filterMap Piece.item? := by
  induction pieces generalizing line with
  | nil =>
    rw [rowsFrom_nil]
    cases line with
    | nil => rfl
    | cons i line => simp [Row.items]
  | cons piece rest ih =>
    cases piece with
    | item i =>
      rw [rowsFrom_item]
      split
      · simp [ih, Row.items, Piece.item?]
      · simp [ih, Piece.item?]
    | lineBreak spacing =>
      rw [rowsFrom_lineBreak, List.flatMap_append, ih]
      cases line with
      | nil => cases spacing <;> rfl
      | cons i line => simp [Row.items, Piece.item?, List.filterMap_cons]

theorem rows_items (maxWidth : Length) (pieces : List Piece) :
    (rows maxWidth pieces).flatMap Row.items = pieces.filterMap Piece.item? := by
  rw [rows_eq_rowsFrom, rowsFrom_items, List.nil_append]

end Galley.Reference
