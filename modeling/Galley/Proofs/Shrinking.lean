import Mathlib
import Galley.Proofs.Simulation

/-! A narrower column. Every item that was kept on its line ends within the width of the layout, and every
item that was not reached beyond the column. So between those two widths nothing moves. -/

namespace Galley

namespace Reference

theorem elements_of_line (top : Length) (items : List Item) (rs : List Row) :
    elements top (.line items :: rs) =
      spread (top + (lineHeight items).half) [] items ++ elements (top + lineHeight items) rs := rfl

/-- The last of the items that are kept on a line ends where one of the elements does. -/
theorem kept_item_ends (line : List Item) (i : Item) (maxWidth top : Length) (pieces : List Piece) :
    ∃ e ∈ elements top (rowsFrom maxWidth (line ++ [i]) pieces),
      right e = penAfter line + i.size.width := by
  obtain ⟨more, rs, h⟩ := rowsFrom_keeps (show line ++ [i] ≠ [] by simp) maxWidth pieces
  let y := top + (lineHeight (line ++ [i] ++ more)).half
  refine ⟨⟨i.body, i.size, ⟨penAfter line, y⟩⟩, ?_, rfl⟩
  rw [h, elements_of_line, spread_append, spread_append]
  simp [spread, y]

theorem rowsFrom_narrower {wide narrow top : Length} {line : List Item} {pieces : List Piece}
    (hw : narrow ≤ wide) (h : ∀ e ∈ elements top (rowsFrom wide line pieces), right e ≤ narrow) :
    rowsFrom narrow line pieces = rowsFrom wide line pieces := by
  induction pieces generalizing line top with
  | nil => rw [rowsFrom_nil, rowsFrom_nil]
  | cons piece rest ih =>
    cases piece with
    | lineBreak spacing =>
      rw [rowsFrom_lineBreak, elements_append] at h
      rw [rowsFrom_lineBreak, rowsFrom_lineBreak, ih fun e he => h e (List.mem_append_right _ he)]
    | item i =>
      rw [rowsFrom_item] at h
      rw [rowsFrom_item, rowsFrom_item]
      cases hl : line.isEmpty with
      | true =>
        simp only [hl, Bool.not_true, Bool.false_and, Bool.false_eq_true, if_false] at h ⊢
        exact ih h
      | false =>
        simp only [hl, Bool.not_false, Bool.true_and, decide_eq_true_eq] at h ⊢
        by_cases hwide : wide < penAfter line + i.size.width
        -- What did not fit before fits even less, and what was kept is one of the elements.
        · rw [if_pos hwide, elements_of_line] at h
          rw [if_pos hwide, if_pos (hw.trans_lt hwide), ih fun e he => h e (List.mem_append_right _ he)]
        · rw [if_neg hwide] at h
          obtain ⟨e, he, hright⟩ := kept_item_ends line i wide top rest
          have hnarrow : penAfter line + i.size.width ≤ narrow := hright ▸ h e he
          rw [if_neg hwide, if_neg hnarrow.not_gt, ih h]

theorem rows_narrower {wide narrow : Length} {pieces : List Piece} (hw : narrow ≤ wide)
    (h : (size (rows wide pieces)).width ≤ narrow) : rows narrow pieces = rows wide pieces := by
  rw [rows_eq_rowsFrom] at h
  rw [rows_eq_rowsFrom, rows_eq_rowsFrom]
  refine rowsFrom_narrower hw fun e (he : e ∈ elements 0 _) => ?_
  exact (Length.le_foldl_max (List.mem_map_of_mem he)).trans h

end Reference

namespace Compiler

open Reference

/-- A layout is the same in every column that is no wider than its own and holds it. -/
theorem compile_at_narrower_width {c : Compiler} {markup : String} {wide narrow : Length} {out : Compiled}
    (ho : c.compile markup wide = .ok out) (hout : out.size.width ≤ narrow) (hw : narrow ≤ wide) :
    c.compile markup narrow = .ok out := by
  obtain ⟨more, hf, ho⟩ := bind_eq_ok ho
  cases ho
  obtain ⟨nodes, k, hn, hk, rfl⟩ := fragment_eq_ok hf
  obtain ⟨k', hk'⟩ := layout_at_any_width hk narrow
  have hfits : (size (rows wide (c.stream nodes))).width ≤ narrow := by
    rw [← layout_size hk]
    exact (le_max_right _ _).trans hout
  have hrows := rows_narrower hw hfits
  have he : k'.elements = k.elements := by rw [layout_elements hk', hrows, layout_elements hk]
  have hs : k'.size = k.size := by rw [layout_size hk', hrows, layout_size hk]
  rw [compile_of_layout hn hk', he, hs]

theorem compile_at_narrower_width_tight : ∃ out, monospaced.compile wrappedMarkup (.ofPoints 40) = .ok out ∧
    out.size.width ≤ .ofPoints 24 ∧ Length.ofPoints 24 ≤ .ofPoints 40 ∧
    monospaced.compile wrappedMarkup (.ofPoints 24) = .ok out := by
  have hf : failure? (monospaced.layout wrappedNodes (.ofPoints 40)) = none := by decide +kernel
  obtain ⟨k, hk⟩ := failure?_eq_none.mp hf
  have ho := compile_of_layout wrapped_parses hk
  have hwidth : (monospaced.layout wrappedNodes (.ofPoints 40)).toOption.map (·.widest) =
      some (.ofPoints 24) := by decide +kernel
  rw [hk] at hwidth
  have hk' : k.widest = .ofPoints 24 := Option.some.inj hwidth
  have hout : max 0 k.widest ≤ .ofPoints 24 := by
    rw [hk']
    decide
  have hw : Length.ofPoints 24 ≤ .ofPoints 40 := by decide
  exact ⟨_, ho, hout, hw, compile_at_narrower_width ho hout hw⟩

end Compiler

end Galley
