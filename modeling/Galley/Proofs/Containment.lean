import Galley.Proofs.Simulation

/-! Everything is drawn inside the size that is reported, as long as no font measures below zero. An item
is no higher than its line, so its box stays between the edges of the line, and the size of a target only
grows when more is laid out on it. -/

namespace Galley

open Markup (Node)

structure Font.Nonneg (f : Font) : Prop where
  width : ∀ {text size}, f.measure text = .ok size → 0 ≤ size.width
  height : ∀ {text size}, f.measure text = .ok size → 0 ≤ size.height
  lineSpacing : 0 ≤ f.lineSpacing

structure Item.Nonneg (i : Item) : Prop where
  width : 0 ≤ i.size.width
  height : 0 ≤ i.size.height
  advance : 0 ≤ i.advance

/-- An item that never moves the pen back. -/
structure Item.Forward (i : Item) : Prop where
  width : 0 ≤ i.size.width
  advance : 0 ≤ i.advance

theorem Item.Nonneg.forward {i : Item} (h : i.Nonneg) : i.Forward := ⟨h.width, h.advance⟩

def Piece.Nonneg : Piece → Prop
  | .item i => i.Nonneg
  | .lineBreak spacing => ∀ height ∈ spacing, 0 ≤ height

namespace Reference

def Row.Nonneg : Row → Prop
  | .line items => ∀ i ∈ items, i.Nonneg
  | .blank spacing => 0 ≤ spacing

theorem rowsFrom_nonneg {maxWidth : Length} {line : List Item} {pieces : List Piece}
    (hl : ∀ i ∈ line, i.Nonneg) (hp : ∀ p ∈ pieces, p.Nonneg) :
    ∀ r ∈ rowsFrom maxWidth line pieces, r.Nonneg := by
  induction pieces generalizing line with
  | nil =>
    rw [rowsFrom_nil]
    intro r hr
    split at hr
    · simp at hr
    · rw [List.mem_singleton.mp hr]
      exact hl
  | cons piece rest ih =>
    obtain ⟨hpiece, hrest⟩ := List.forall_mem_cons.mp hp
    cases piece with
    | item i =>
      rw [rowsFrom_item]
      split
      · exact List.forall_mem_cons.mpr ⟨hl, ih (List.forall_mem_singleton.mpr hpiece) hrest⟩
      · exact ih (List.forall_mem_append.mpr ⟨hl, List.forall_mem_singleton.mpr hpiece⟩) hrest
    | lineBreak spacing =>
      rw [rowsFrom_lineBreak]
      refine List.forall_mem_append.mpr ⟨fun r hr => ?_, ih (by simp) hrest⟩
      split at hr
      · obtain ⟨height, hh, he⟩ : ∃ height, spacing = some height ∧ .blank height = r := by simpa using hr
        rw [← he]
        exact hpiece height hh
      · rw [List.mem_singleton.mp hr]
        exact hl

theorem rows_nonneg {maxWidth : Length} {pieces : List Piece} (hp : ∀ p ∈ pieces, p.Nonneg) :
    ∀ r ∈ rows maxWidth pieces, r.Nonneg := by
  rw [rows_eq_rowsFrom]
  exact rowsFrom_nonneg (by simp) hp

theorem penAfter_nonneg {items : List Item} (h : ∀ i ∈ items, i.Forward) : 0 ≤ penAfter items := by
  induction items using List.reverseRecOn with
  | nil => exact le_rfl
  | append_singleton items i ih =>
    obtain ⟨hitems, hi⟩ := List.forall_mem_append.mp h
    have hi' := hi i (by simp)
    rw [penAfter_append]
    exact Length.add_nonneg (ih hitems) (Length.add_nonneg hi'.width hi'.advance)

theorem lineHeight_nonneg (items : List Item) : 0 ≤ lineHeight items := Length.init_le_foldl_max _ _

theorem height_le_lineHeight {items : List Item} {i : Item} (h : i ∈ items) :
    i.size.height ≤ lineHeight items := Length.le_foldl_max (List.mem_map_of_mem h)

theorem Row.Nonneg.height {r : Row} (h : r.Nonneg) : 0 ≤ r.height := by
  cases r with
  | line items => exact lineHeight_nonneg items
  | blank spacing => exact h

theorem snapped_bottom {rs : List Row} {top : Length} (hs : top.Snapped) : (bottom top rs).Snapped := by
  induction rs generalizing top with
  | nil => exact hs
  | cons row rs ih => exact ih (Length.snapped_add _ _)

theorem le_bottom {rs : List Row} (h : ∀ r ∈ rs, 0 ≤ r.height) {top : Length} (hs : top.Snapped) :
    top ≤ bottom top rs := by
  induction rs generalizing top with
  | nil => exact le_rfl
  | cons row rs ih =>
    obtain ⟨hrow, hrs⟩ := List.forall_mem_cons.mp h
    exact (Length.le_add hs hrow).trans (ih hrs (Length.snapped_add _ _))

theorem mem_spread {y : Length} {before items : List Item} {e : Element} (h : e ∈ spread y before items) :
    ∃ left i right, items = left ++ i :: right ∧
      e = ⟨i.body, i.size, ⟨penAfter (before ++ left), y⟩⟩ := by
  rw [← placed_elements] at h
  obtain ⟨p, hp, rfl⟩ := List.mem_map.mp h
  obtain ⟨left, i, right, hi, rfl⟩ := mem_placed hp
  exact ⟨left, i, right, hi, rfl⟩

theorem row_contains {r : Row} (h : r.Nonneg) {top : Length} (ht : 0 ≤ top) {e : Element}
    (he : e ∈ r.elements top) : 0 ≤ e.position.x ∧ 0 ≤ (topLeft e.position e.size).y ∧
      (topLeft e.position e.size).y + e.size.height ≤ top + r.height := by
  cases r with
  | blank spacing => simp [Row.elements] at he
  | line items =>
    obtain ⟨left, i, right, hi, rfl⟩ := mem_spread he
    have hm : i ∈ items := by simp [hi]
    have hleft : ∀ j ∈ left, j.Forward := fun j hj => (h j (by simp [hi, hj])).forward
    have hbox := Length.box_within_line ht (h i hm).height (height_le_lineHeight hm)
    exact ⟨penAfter_nonneg hleft, hbox⟩

theorem elements_contained {rs : List Row} (h : ∀ r ∈ rs, r.Nonneg) {top : Length} (ht : 0 ≤ top)
    (hs : top.Snapped) {e : Element} (he : e ∈ elements top rs) :
    0 ≤ e.position.x ∧ 0 ≤ (topLeft e.position e.size).y ∧
      (topLeft e.position e.size).y + e.size.height ≤ bottom top rs := by
  induction rs generalizing top with
  | nil => simp [elements] at he
  | cons row rs ih =>
    obtain ⟨hrow, hrs⟩ := List.forall_mem_cons.mp h
    have hs' := Length.snapped_add top row.height
    rcases List.mem_append.mp he with he | he
    · obtain ⟨hx, hy, hb⟩ := row_contains hrow ht he
      exact ⟨hx, hy, hb.trans (le_bottom (fun r hr => (hrs r hr).height) hs')⟩
    · exact ih hrs (Length.add_nonneg ht hrow.height) hs' he

end Reference

structure Element.Inside (e : Element) (s : Size) : Prop where
  left : 0 ≤ e.position.x
  right : e.position.x + e.size.width ≤ s.width
  top : 0 ≤ (topLeft e.position e.size).y
  bottom : (topLeft e.position e.size).y + e.size.height ≤ s.height

theorem Element.Inside.mono {e : Element} {s s' : Size} (h : e.Inside s) (hw : s.width ≤ s'.width)
    (hh : s.height ≤ s'.height) : e.Inside s' :=
  ⟨h.left, h.right.trans hw, h.top, h.bottom.trans hh⟩

theorem Reference.elements_inside {rs : List Row} (h : ∀ r ∈ rs, r.Nonneg) :
    ∀ e ∈ elements 0 rs, e.Inside (size rs) := by
  intro e he
  obtain ⟨hx, hy, hb⟩ := elements_contained h le_rfl Length.snapped_zero he
  exact ⟨hx, Length.le_foldl_max (List.mem_map_of_mem he), hy, hb⟩

namespace Compiler

def Nonneg (c : Compiler) : Prop := ∀ name font, c.fonts name = .ok font → font.Nonneg

variable {c : Compiler}

theorem Nonneg.format (h : c.Nonneg) {around : List Opening} {format : Format}
    (hf : c.formatIn around = some format) : format.font.Nonneg := by
  obtain ⟨⟨name, _, hr⟩, _⟩ := formatIn_eq_some.mp hf
  exact h name _ hr

theorem sizeOf_nonneg {format : Format} (h : format.font.Nonneg) (text : String) :
    0 ≤ (format.sizeOf text).width ∧ 0 ≤ (format.sizeOf text).height := by
  rw [Format.sizeOf]
  cases hm : format.font.measure text with
  | ok size => exact ⟨h.width hm, h.height hm⟩
  | error overflow => exact ⟨le_rfl, le_rfl⟩

theorem wordItems_nonneg {format : Format} (h : format.font.Nonneg) (words : List String) :
    ∀ i ∈ wordItems format words, i.Nonneg := by
  induction words with
  | nil => simp [wordItems]
  | cons word rest ih =>
    obtain ⟨hwidth, hheight⟩ := sizeOf_nonneg h word
    refine List.forall_mem_cons.mpr ⟨⟨hwidth, hheight, ?_⟩, ih⟩
    change 0 ≤ if rest.isEmpty then 0 else _
    split
    · exact le_rfl
    · exact (sizeOf_nonneg h " ").1

theorem image_size_nonneg (image : Image) : 0 ≤ image.size.width ∧ 0 ≤ image.size.height :=
  ⟨Length.ofMillis_nonneg (by omega), Length.ofMillis_nonneg (by omega)⟩

theorem imageItem_nonneg {attributes : Attributes} {i : Item} (h : c.imageItem attributes = some i) :
    i.Nonneg := by
  obtain ⟨src, _, h⟩ := Option.bind_eq_some_iff.mp h
  obtain ⟨image, _, h⟩ := Option.bind_eq_some_iff.mp h
  obtain ⟨tint, _, h⟩ := Option.bind_eq_some_iff.mp h
  cases h
  exact ⟨(image_size_nonneg image).1, (image_size_nonneg image).2, le_rfl⟩

theorem Nonneg.pieces (h : c.Nonneg) (s : Site) : ∀ p ∈ c.piecesAt s, p.Nonneg := by
  obtain ⟨around, node⟩ := s
  intro p hp
  cases node with
  | aside => simp [piecesAt] at hp
  | text content =>
    simp only [piecesAt] at hp
    split at hp
    · cases hf : c.formatIn around with
      | none => simp [hf] at hp
      | some format =>
        simp only [hf] at hp
        obtain ⟨i, hi, rfl⟩ := List.mem_map.mp hp
        exact wordItems_nonneg (h.format hf) _ i hi
    · simp at hp
  | element name attributes children =>
    simp only [piecesAt] at hp
    split at hp
    · rw [List.mem_singleton.mp hp]
      intro height hh
      obtain ⟨format, hf, rfl⟩ := Option.map_eq_some_iff.mp hh
      exact (h.format hf).lineSpacing
    · split at hp
      · obtain ⟨i, hi, rfl⟩ := List.mem_map.mp hp
        exact imageItem_nonneg (Option.mem_toList.mp hi)
      · simp at hp

theorem Nonneg.stream (h : c.Nonneg) (nodes : List Node) : ∀ p ∈ c.stream nodes, p.Nonneg := by
  intro p hp
  obtain ⟨s, _, hp⟩ := List.mem_flatMap.mp hp
  exact h.pieces s p hp

theorem monospaced_nonneg : monospaced.Nonneg := by
  intro name font h
  simp only [monospaced] at h
  split at h
  · cases h
    refine ⟨fun hm => ?_, fun hm => ?_, Length.ofMillis_nonneg (by decide)⟩
    · cases hm
      exact Length.ofMillis_nonneg (by omega)
    · cases hm
      exact Length.ofMillis_nonneg (by decide)
  · cases h

end Compiler

def Compiled.Contained (target : Compiled) : Prop := ∀ e ∈ target.elements, e.Inside target.size

structure Call where
  compiler : Compiler
  markup : String
  maxWidth : Length

def Call.run (target : Compiled) (call : Call) : Compiled :=
  (call.compiler.compileInto call.markup call.maxWidth target).1

def Call.runAll (target : Compiled) (calls : List Call) : Compiled := calls.foldl run target

namespace Compiled

theorem Contained.append {target more : Compiled} (h : target.Contained) (hm : more.Contained) :
    (target.append more).Contained := by
  intro e he
  rcases List.mem_append.mp he with he | he
  · exact (h e he).mono (le_max_left _ _) (le_max_left _ _)
  · exact (hm e he).mono (le_max_right _ _) (le_max_right _ _)

end Compiled

theorem Compiler.Nonneg.fragment {c : Compiler} (h : c.Nonneg) {markup : String} {maxWidth : Length}
    {out : Compiled} (ho : c.fragment markup maxWidth = .ok out) : out.Contained := by
  obtain ⟨nodes, k, _, hk, rfl⟩ := fragment_eq_ok ho
  change ∀ e ∈ k.elements, e.Inside k.size
  rw [Compiler.layout_elements hk, Compiler.layout_size hk]
  exact Reference.elements_inside (Reference.rows_nonneg (h.stream nodes))

namespace Call

theorem run_contained {target : Compiled} {call : Call} (h : call.compiler.Nonneg)
    (ht : target.Contained) : (run target call).Contained := by
  rw [run]
  cases hf : call.compiler.fragment call.markup call.maxWidth with
  | error f =>
    rw [Compiler.compileInto_of_error hf]
    exact ht
  | ok more =>
    rw [Compiler.compileInto_of_ok hf]
    exact ht.append (h.fragment hf)

theorem runAll_contained_from {target : Compiled} {calls : List Call} (h : ∀ call ∈ calls, call.compiler.Nonneg)
    (ht : target.Contained) : (runAll target calls).Contained := by
  induction calls generalizing target with
  | nil => exact ht
  | cons call rest ih =>
    obtain ⟨hcall, hrest⟩ := List.forall_mem_cons.mp h
    exact ih hrest (run_contained hcall ht)

/-- Whatever was laid out on a new target, every element is inside its size. -/
theorem runAll_contained {calls : List Call} (h : ∀ call ∈ calls, call.compiler.Nonneg) :
    (runAll {} calls).Contained :=
  runAll_contained_from h (by simp [Compiled.Contained])

def sampleCalls : List Call :=
  [⟨.monospaced, Compiler.wrappedMarkup, .ofPoints 30⟩, ⟨.monospaced, "<br/>", .ofPoints 30⟩,
    ⟨.monospaced, "<img src=\"dot\"/>", 0⟩]

theorem runAll_contained_sample : (∀ call ∈ sampleCalls, call.compiler.Nonneg) ∧
    (runAll {} sampleCalls).elements.length = 5 ∧ (runAll {} sampleCalls).Contained := by
  have hn : ∀ call ∈ sampleCalls, call.compiler.Nonneg := by
    simp [sampleCalls, Compiler.monospaced_nonneg]
  exact ⟨hn, by decide +kernel, runAll_contained hn⟩

end Call

end Galley
