import Galley.Proofs.Simulation

/-! What is drawn of a tree. Once nothing in it is at fault, every word and image it shows gives one element,
in document order and on whichever line, and no other element is drawn. -/

namespace Galley

open Markup (Node)

namespace Compiler

/-- What is drawn for a word or an image. The font and the color of a word are each the nearest one. -/
inductive Depicts (c : Compiler) : Shown → Body × Size → Prop where
  | word {text name literal : String} {around : List Opening} {font : Font} {color : Color} {size : Size}
    (hf : nearestInText "font" around = some name) (hr : c.fonts name = .ok font)
    (hc : nearestInText "color" around = some literal) (hp : Color.parse literal = .ok color)
    (hm : font.measure text = .ok size) :
    Depicts c (.word text around) (.word text ⟨font, color⟩, size)
  | image {attributes : Attributes} {src : String} {image : Image}
    (hs : attributes.lookup "src" = some src) (hr : c.images src = .ok image)
    (hc : attributes.lookup "color" = none) :
    Depicts c (.image attributes) (.image image .white, image.size)
  | tinted {attributes : Attributes} {src literal : String} {image : Image} {tint : Color}
    (hs : attributes.lookup "src" = some src) (hr : c.images src = .ok image)
    (hc : attributes.lookup "color" = some literal) (hp : Color.parse literal = .ok tint) :
    Depicts c (.image attributes) (.image image tint, image.size)

variable {c : Compiler} {around : List Opening} {before : List Site} {attributes : Attributes}

theorem sizeOf_eq_of_sizeOffence {format : Format} {words : List String} (h : c.formatIn around = some format)
    (ho : c.sizeOffence around words = none) :
    ∀ word ∈ words, format.font.measure word = .ok (format.sizeOf word) := by
  intro word hword
  rw [sizeOffence, h, Option.bind_some, List.findSome?_eq_none_iff] at ho
  obtain ⟨size, hm⟩ := failure?_eq_none.mp (ho word (List.mem_cons_of_mem _ hword))
  rw [Format.sizeOf_eq hm]
  exact Format.measure_eq_ok.mp hm

theorem depicts_words {format : Format} (h : c.formatIn around = some format) {words : List String}
    (hm : ∀ word ∈ words, format.font.measure word = .ok (format.sizeOf word)) :
    List.Forall₂ c.Depicts (words.map (.word · around)) ((wordItems format words).map Item.content) := by
  obtain ⟨⟨name, hf, hr⟩, literal, hc, hp⟩ := formatIn_eq_some.mp h
  induction words with
  | nil => exact .nil
  | cons word rest ih =>
    obtain ⟨hword, hrest⟩ := List.forall_mem_cons.mp hm
    exact .cons (.word hf hr hc hp hword) (ih hrest)

theorem depicts_image (h : c.imageOffence attributes = none) :
    ∃ i, c.imageItem attributes = some i ∧ c.Depicts (.image attributes) i.content := by
  rw [imageOffence] at h
  cases hs : attributes.lookup "src" with
  | none => simp [hs] at h
  | some src =>
    simp only [hs, Option.or_eq_none_iff] at h
    obtain ⟨hc, hi⟩ := h
    obtain ⟨image, hi⟩ := failure?_eq_none.mp hi
    have hr : c.images src = .ok image := mapError_eq_ok.mp hi
    have hitem : ∀ {tint}, attributes.tint = .ok tint →
        c.imageItem attributes = some ⟨.image image tint, image.size, 0⟩ := by
      intro tint ht
      simp [imageItem, hs, toOption_eq_some.mpr hr, toOption_eq_some.mpr ht]
    cases hl : attributes.lookup "color" with
    | none =>
      have ht : attributes.tint = .ok .white := by simp [Attributes.tint, hl]
      exact ⟨_, hitem ht, .image hs hr hl⟩
    | some literal =>
      simp only [hl, Option.bind_some] at hc
      obtain ⟨tint, hp⟩ := failure?_eq_none.mp hc
      have ht : attributes.tint = .ok tint := by simpa [Attributes.tint, hl] using hp
      exact ⟨_, hitem ht, .tinted hs hr hl (mapError_eq_ok.mp hp)⟩

theorem depicts_at {s : Site} (hs : c.Settled s.around) (ho : c.offence before s = none) :
    List.Forall₂ c.Depicts (c.shownAt s) (((c.piecesAt s).filterMap Piece.item?).map Item.content) := by
  obtain ⟨around, node⟩ := s
  cases hv : c.isVisibleIn around with
  | false =>
    have hn : (c.piecesAt ⟨around, node⟩).filterMap Piece.item? = [] := by
      cases node with
      | text content => simp [piecesAt, hv]
      | aside => rfl
      | element name attributes children =>
        simp only [piecesAt, hv]
        split <;> simp [Piece.item?, List.filterMap_cons]
    rw [hn]
    simp [shownAt, hv]
  | true =>
    cases node with
    | aside => simp [shownAt, hv, piecesAt]
    | text content =>
      simp only [shownAt, hv, piecesAt, Bool.not_true, Bool.false_eq_true, if_false, if_true]
      cases hf : c.formatIn around with
      | some format =>
        have hi : isInText around = true := by
          rw [← hs, hf]
          rfl
        have hm : ∀ word ∈ Text.parts content, format.font.measure word = .ok (format.sizeOf word) := by
          intro word hword
          have hsize : c.sizeOffence around (Text.parts content) = none := by
            simpa [offence, hv, hi, List.ne_nil_of_mem hword] using ho
          exact sizeOf_eq_of_sizeOffence hf hsize word hword
        have hh := depicts_words hf hm
        simpa [List.filterMap_map, Function.comp_def, Piece.item?] using hh
      | none =>
        have hi : isInText around = false := by
          rw [← hs, hf]
          rfl
        have hw : Text.parts content = [] := by simpa [offence, hv, hi] using ho
        simp [hw]
    | element name attributes children =>
      simp only [shownAt, hv, piecesAt]
      by_cases hb : name = "br"
      · simp [hb, Piece.item?, List.filterMap_cons]
      by_cases hi : name = "img"
      · subst hi
        have hh : c.imageOffence attributes = none := by simpa [offence, hv] using ho
        obtain ⟨i, hm, hd⟩ := depicts_image hh
        simpa [hm, Piece.item?, List.filterMap_cons] using hd
      · simp [hb, hi]

theorem depicts_all {ss : List Site} (hs : ∀ s ∈ ss, c.Settled s.around)
    (ho : c.firstOffence before ss = none) : List.Forall₂ c.Depicts (ss.flatMap c.shownAt)
      (((ss.flatMap c.piecesAt).filterMap Piece.item?).map Item.content) := by
  induction ss generalizing before with
  | nil => exact .nil
  | cons s rest ih =>
    obtain ⟨hhead, hrest⟩ := Option.or_eq_none_iff.mp ho
    have hd := depicts_at (hs s List.mem_cons_self) hhead
    have hr := ih (fun t ht => hs t (List.mem_cons_of_mem _ ht)) hrest
    simp only [List.flatMap_cons, List.filterMap_append, List.map_append]
    exact List.rel_append hd hr

theorem layout_content {nodes : List Node} {maxWidth : Length} {k : Column}
    (h : c.layout nodes maxWidth = .ok k) : k.elements.map Element.content =
      ((c.stream nodes).filterMap Piece.item?).map Item.content := by
  rw [layout_elements h, Reference.elements_content, Reference.rows_items]

/-- The elements are the shown words and images of the tree in document order, in the formats that the
elements around them set, and another width gives the same ones. -/
theorem compile_depicts {markup : String} {nodes : List Node} {maxWidth : Length} {out : Compiled}
    (hn : Markup.parseFragment markup = .ok nodes) (ho : c.compile markup maxWidth = .ok out) :
    List.Forall₂ c.Depicts ((sitesOfAll [] nodes).flatMap c.shownAt) (out.elements.map Element.content) ∧
    (∀ text around, .word text around ∈ (sitesOfAll [] nodes).flatMap c.shownAt →
      text ≠ "" ∧ ∀ ch ∈ text.toList, Text.isBlank ch = false) ∧
    ∀ width, ∃ out', c.compile markup width = .ok out' ∧
      out'.elements.map Element.content = out.elements.map Element.content := by
  rw [compile_of_parse hn] at ho
  obtain ⟨k, hk, ho⟩ := bind_eq_ok ho
  cases ho
  refine ⟨?_, ?_, fun width => ?_⟩
  · have hd := depicts_all (settled_of_layout hk) (firstOffence_of_layout hk)
    change List.Forall₂ c.Depicts _ (k.elements.map Element.content)
    rwa [layout_content hk]
  · intro text around hm
    obtain ⟨⟨_, node⟩, _, hm⟩ := List.mem_flatMap.mp hm
    rw [shownAt] at hm
    split at hm
    · simp at hm
    · split at hm
      · obtain ⟨word, hw, he⟩ := List.mem_map.mp hm
        cases he
        exact Text.mem_parts hw
      · simp at hm
      · split at hm <;> simp at hm
  · obtain ⟨k', hk'⟩ := layout_at_any_width hk width
    refine ⟨_, by rw [compile_of_parse hn, hk']; rfl, ?_⟩
    change k'.elements.map Element.content = k.elements.map Element.content
    rw [layout_content hk', layout_content hk]

def nestedMarkup : String :=
  "<text font=\"mono\" color=\"000000\"><br>a</br><text color=\"ff0000\">b <b>c</b></text>" ++
    "<if clause=\"off\">d<if clause=\"on\"><img src=\"dot\"/></if></if></text>"

def nestedNodes : List Node :=
  [.element "text" [("font", "mono"), ("color", "000000")]
    [.element "br" [] [.text "a"],
      .element "text" [("color", "ff0000")] [.text "b ", .element "b" [] [.text "c"]],
      .element "if" [("clause", "off")]
        [.text "d", .element "if" [("clause", "on")] [.element "img" [("src", "dot")] []]]]]

theorem compile_depicts_nested : Markup.parseFragment nestedMarkup = .ok nestedNodes ∧
    ∃ out, monospaced.compile nestedMarkup (.ofPoints 20) = .ok out ∧
      List.Forall₂ monospaced.Depicts ((sitesOfAll [] nestedNodes).flatMap monospaced.shownAt)
        (out.elements.map Element.content) := by
  have hn : Markup.parseFragment nestedMarkup = .ok nestedNodes := by cbv
  have hf : failure? (monospaced.layout nestedNodes (.ofPoints 20)) = none := by decide +kernel
  obtain ⟨k, hk⟩ := failure?_eq_none.mp hf
  have ho := compile_of_layout hn hk
  exact ⟨hn, _, ho, (compile_depicts hn ho).1⟩

end Compiler

end Galley
