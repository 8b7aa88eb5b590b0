import Galley.Compiled
import Galley.Proofs.Nesting
import Galley.Proofs.Stream

/-! A pass against the sites of its tree. It fails with the first offence, and otherwise adds the stream of
the tree to its column. -/

namespace Galley

open Markup (Node)

/-- A run over some sites fails with their first offence. Otherwise it adds their pieces to the column, and
items are pending where something was shown since the last break. -/
structure Follows (c : Compiler) (before ss : List Site) (k : Column) (r : Except Failure Pass) : Prop where
  failure : failure? r = c.firstOffence before ss
  column : ∀ q, r = .ok q → q.column = k.addAll (ss.flatMap c.piecesAt)
  pending : ∀ q, r = .ok q → q.column.pending.isEmpty = c.isFresh (ss.reverse ++ before)
  settled : ∀ q, r = .ok q → ∀ s ∈ ss, c.Settled s.around

theorem Pass.column_leave (p : Pass) (tag : Tag) : (p.leave tag).column = p.column := by
  cases tag <;> rfl

namespace Follows

variable {c : Compiler} {before ss ts : List Site} {k : Column} {r : Except Failure Pass}

theorem nil {p : Pass} (h : p.column.pending.isEmpty = c.isFresh before) :
    Follows c before [] p.column (.ok p) where
  failure := rfl
  column q hq := by cases hq; rfl
  pending q hq := by cases hq; exact h
  settled q _ s hs := by simp at hs

theorem single {s : Site} (hs : c.Settled s.around) (hf : failure? r = c.offence before s)
    (hr : ∀ q, r = .ok q → q.column = k.addAll (c.piecesAt s) ∧
      q.column.pending.isEmpty = c.isFresh (s :: before)) : Follows c before [s] k r where
  failure := by simpa [Compiler.firstOffence] using hf
  column q hq := by simpa using (hr q hq).1
  pending q hq := (hr q hq).2
  settled q _ t ht := by
    rw [List.mem_singleton.mp ht]
    exact hs

theorem quiet {p : Pass} {s : Site} (hs : c.Settled s.around)
    (hk : p.column.pending.isEmpty = c.isFresh before) (hb : s.isBreak = false) (hsh : c.shownAt s = [])
    (hp : c.piecesAt s = []) (hf : failure? r = c.offence before s)
    (hr : ∀ q, r = .ok q → q.column = p.column) : Follows c before [s] p.column r := by
  refine single hs hf fun q hq => ?_
  rw [hr q hq, Compiler.isFresh_cons, hb, hsh, hp, hk]
  exact ⟨rfl, rfl⟩

theorem map_leave (h : Follows c before ss k r) (tag : Tag) :
    Follows c before ss k (do return (← r).leave tag) where
  failure := (failure?_map _ _).trans h.failure
  column q hq := by
    obtain ⟨p, hp, hq⟩ := bind_eq_ok hq
    cases hq
    rw [Pass.column_leave, h.column p hp]
  pending q hq := by
    obtain ⟨p, hp, hq⟩ := bind_eq_ok hq
    cases hq
    rw [Pass.column_leave, h.pending p hp]
  settled q hq := by
    obtain ⟨p, hp, hq⟩ := bind_eq_ok hq
    exact h.settled p hp

theorem firstOffence_append (c : Compiler) (ss ts before : List Site) : c.firstOffence before (ss ++ ts) =
    (c.firstOffence before ss).or (c.firstOffence (ss.reverse ++ before) ts) := by
  induction ss generalizing before with
  | nil => rfl
  | cons s ss ih =>
    simp only [List.cons_append, Compiler.firstOffence, ih, Option.or_assoc, List.reverse_cons,
      List.append_assoc, List.nil_append]

theorem bind {g : Pass → Except Failure Pass} (h : Follows c before ss k r)
    (hg : ∀ q, r = .ok q → Follows c (ss.reverse ++ before) ts q.column (g q)) :
    Follows c before (ss ++ ts) k (r >>= g) where
  failure := by
    rw [firstOffence_append, ← h.failure]
    exact failure?_bind fun q hq => (hg q hq).failure
  column q hq := by
    obtain ⟨p, hp, hq⟩ := bind_eq_ok hq
    rw [(hg p hp).column q hq, h.column p hp, List.flatMap_append, Column.addAll_append]
  pending q hq := by
    obtain ⟨p, hp, hq⟩ := bind_eq_ok hq
    rw [(hg p hp).pending q hq, List.reverse_append, List.append_assoc]
  settled q hq s hs := by
    obtain ⟨p, hp, hq⟩ := bind_eq_ok hq
    rcases List.mem_append.mp hs with hs | hs
    · exact h.settled p hp s hs
    · exact (hg p hp).settled q hq s hs

end Follows

namespace Pass

variable {c : Compiler} {around : List Opening} {before : List Site} {p q : Pass} {attributes : Attributes}

theorem lineBreak_follows (h : p.Within c around) (hk : p.column.pending.isEmpty = c.isFresh before)
    (children : List Node) :
    Follows c before [⟨around, .element "br" attributes children⟩] p.column p.lineBreak := by
  refine .single h.settled ?_ fun q hq => ?_
  · rw [Compiler.offence_break, ← hk, lineBreak, Column.lineBreak]
    cases p.column.pending.isEmpty with
    | false => simp [failure?, bind, Except.bind, pure, Except.pure]
    | true =>
      rw [currentFormat]
      cases hp : p.formats with
      | nil => simp [h.formats_nil hp, failure?, bind, Except.bind]
      | cons outer rest => simp [(h.formats_cons hp).2, failure?, bind, Except.bind, pure, Except.pure]
  · obtain ⟨column, hc, hq⟩ := bind_eq_ok hq
    cases hq
    have hfresh : c.isFresh (⟨around, .element "br" attributes children⟩ :: before) = true := by
      simp [Compiler.isFresh_cons, Site.isBreak]
    rw [hfresh]
    simp only [Compiler.piecesAt, if_true, Column.addAll, List.foldl_cons, List.foldl_nil, Column.add]
    rw [Column.lineBreak] at hc
    cases hp : p.column.pending.isEmpty with
    | false =>
      simp only [hp] at hc
      cases hc
      exact ⟨rfl, rfl⟩
    | true =>
      simp only [hp, if_true] at hc
      obtain ⟨spacing, hs, hc⟩ := bind_eq_ok hc
      obtain ⟨format, hf, hs⟩ := bind_eq_ok hs
      cases hs
      cases hc
      refine ⟨?_, hp⟩
      rw [currentFormat] at hf
      cases hp : p.formats with
      | nil => simp [hp] at hf
      | cons outer rest =>
        simp only [hp, Except.ok.injEq] at hf
        simp [(h.formats_cons hp).1, hf]

theorem image_failure (hv : p.isVisible = true) :
    failure? (p.image c attributes) = c.imageOffence attributes := by
  simp only [image, hv, Compiler.imageOffence, Attributes.required]
  cases attributes.lookup "src" with
  | none => rfl
  | some src =>
    refine (failure?_bind fun tint _ => failure?_map _ _).trans (congrArg (Option.or · _) ?_)
    rw [Attributes.tint]
    cases attributes.lookup "color" <;> rfl

theorem image_item (hv : p.isVisible = true) (hq : p.image c attributes = .ok q) :
    ∃ i, c.imageItem attributes = some i ∧ q.column = p.column.place i.body i.size i.advance := by
  rw [image, hv] at hq
  obtain ⟨src, hs, hq⟩ := bind_eq_ok hq
  obtain ⟨tint, ht, hq⟩ := bind_eq_ok hq
  obtain ⟨image, hi, hq⟩ := bind_eq_ok hq
  cases hq
  refine ⟨⟨.image image tint, image.size, 0⟩, ?_, rfl⟩
  have hi' : c.images src = .ok image := mapError_eq_ok.mp hi
  simp [Compiler.imageItem, required_eq_ok hs, toOption_eq_some.mpr hi', toOption_eq_some.mpr ht]

end Pass

namespace Pass

variable {c : Compiler} {around : List Opening} {before : List Site} {p q : Pass}

theorem image_follows (h : p.Within c around) (hk : p.column.pending.isEmpty = c.isFresh before)
    (attributes : Attributes) (children : List Node) :
    Follows c before [⟨around, .element "img" attributes children⟩] p.column (p.image c attributes) := by
  have hb : Site.isBreak ⟨around, .element "img" attributes children⟩ = false := by simp [Site.isBreak]
  cases hv : c.isVisibleIn around with
  | false =>
    have hp : p.image c attributes = .ok p := by simp [image, h.visible, hv]
    refine .quiet h.settled hk hb ?_ ?_ ?_ fun q hq => ?_
    · simp [Compiler.shownAt, hv]
    · simp [Compiler.piecesAt, hv]
    · simp [hp, Compiler.offence, hv, failure?]
    · rw [hp] at hq
      cases hq
      rfl
  | true =>
    have hp : p.isVisible = true := h.visible.trans hv
    refine .single h.settled ?_ fun q hq => ?_
    · rw [image_failure hp]
      simp [Compiler.offence, hv]
    · obtain ⟨i, hi, hq⟩ := image_item hp hq
      rw [Compiler.isFresh_cons, hb, hq]
      simp [Compiler.piecesAt, Compiler.shownAt, hv, hi, Column.addAll, Column.add, Column.place]

theorem words_follow (h : p.Within c around) {content word : String} {words : List String}
    (hv : c.isVisibleIn around = true) (hw : Text.parts content = word :: words) :
    Follows c before [⟨around, .text content⟩] p.column (p.text content) := by
  have hp : p.text content = do
      let format ← p.currentFormat
      return { p with column := ← p.column.placeText format (word :: words) } := by
    simp [text, Text.words_eq_parts, hw, h.visible, hv]
  rw [hp]
  cases hf : p.formats with
  | nil =>
    have hformat : p.currentFormat = .error (.missingFormat .font) := by rw [currentFormat, hf]
    rw [hformat]
    refine .single h.settled ?_ fun q hq => by cases hq
    simp [Compiler.offence, hv, hw, h.formats_nil hf, failure?, bind, Except.bind]
  | cons outer rest =>
    have hformat : p.currentFormat = .ok outer := by rw [currentFormat, hf]
    obtain ⟨hin, ht⟩ := h.formats_cons hf
    rw [hformat]
    refine .single h.settled ?_ fun q hq => ?_
    · simp only [Compiler.offence, Compiler.sizeOffence, hv, hw, hin, ht]
      exact (failure?_map _ _).trans (Column.placeText_failure _ _ _)
    · obtain ⟨column, hcolumn, hplaced⟩ := bind_eq_ok (r := p.column.placeText outer (word :: words)) hq
      cases hplaced
      obtain ⟨hitems, hpending⟩ := Column.placeText_eq_ok hcolumn
      rw [Compiler.isFresh_cons, hpending, hitems]
      simp [Compiler.piecesAt, Compiler.shownAt, Site.isBreak, hv, hw, hin]

theorem text_follows (h : p.Within c around) (hk : p.column.pending.isEmpty = c.isFresh before)
    (content : String) : Follows c before [⟨around, .text content⟩] p.column (p.text content) := by
  by_cases hq : c.isVisibleIn around = false ∨ Text.parts content = []
  · have hp : p.text content = .ok p := by
      rcases hq with hv | hw
      · simp [text, h.visible, hv]
      · simp [text, Text.words_eq_parts, hw]
    refine .quiet h.settled hk rfl ?_ ?_ ?_ fun q hq => ?_
    · rcases hq with hv | hw
      · simp [Compiler.shownAt, hv]
      · simp [Compiler.shownAt, hw]
    · rcases hq with hv | hw
      · simp [Compiler.piecesAt, hv]
      · simp only [Compiler.piecesAt, hw, wordItems, List.map_nil]
        split
        · split <;> rfl
        · rfl
    · rcases hq with hv | hw
      · simp [hp, Compiler.offence, hv, failure?]
      · simp [hp, Compiler.offence, hw, failure?]
    · rw [hp] at hq
      cases hq
      rfl
  · cases hw : Text.parts content with
    | nil => exact absurd (Or.inr hw) hq
    | cons word words => exact words_follow h (by simpa using fun hv => hq (Or.inl hv)) hw

theorem enter_follows (h : p.Within c around) (hk : p.column.pending.isEmpty = c.isFresh before)
    (name : String) (attributes : Attributes) (children : List Node) :
    Follows c before [⟨around, .element name attributes children⟩] p.column
      (p.enter c (.ofName name) attributes) := by
  by_cases hi : name = "img"
  · subst hi
    exact image_follows h hk attributes children
  by_cases hb : name = "br"
  · subst hb
    exact lineBreak_follows h hk children
  have hquiet : ∀ {r : Except Failure Pass},
      failure? r = c.offence before ⟨around, .element name attributes children⟩ →
      (∀ q, r = .ok q → q.column = p.column) →
      Follows c before [⟨around, .element name attributes children⟩] p.column r :=
    .quiet h.settled hk (by simp [Site.isBreak, hb]) (by simp [Compiler.shownAt, hi])
      (by simp [Compiler.piecesAt, hb, hi])
  by_cases ht : name = "text"
  · subst ht
    refine hquiet ((enterText_failure h).trans (by simp [Compiler.offence])) fun q hq => ?_
    obtain ⟨font, _, hq⟩ := bind_eq_ok hq
    obtain ⟨color, _, hq⟩ := bind_eq_ok hq
    cases hq
    rfl
  by_cases hc : name = "if"
  · subst hc
    refine hquiet (enterCondition_failure.trans (by simp [Compiler.offence])) fun q hq => ?_
    obtain ⟨clause, _, hq⟩ := bind_eq_ok hq
    obtain ⟨answer, _, hq⟩ := bind_eq_ok hq
    cases hq
    rfl
  have hn : Tag.ofName name = .other name := by simp [Tag.ofName, ht, hc, hb, hi]
  rw [hn]
  cases hs : c.strict with
  | true =>
    have he : p.enter c (.other name) attributes = .error (.unsupportedElement name) := by simp [enter, hs]
    rw [he]
    refine hquiet ?_ fun q hq => by cases hq
    simp [Compiler.offence, hs, ht, hc, hi, hb, failure?]
  | false =>
    have he : p.enter c (.other name) attributes = .ok p := by simp [enter, hs]
    rw [he]
    refine hquiet ?_ fun q hq => by cases hq; rfl
    simp [Compiler.offence, hs, ht, hc, hi, hb, failure?]

theorem enter_within (h : p.Within c around) {name : String} {attributes : Attributes}
    (hq : p.enter c (.ofName name) attributes = .ok q) : q.Within c (⟨name, attributes⟩ :: around) := by
  by_cases ht : name = "text"
  · subst ht
    exact enterText_within h hq
  by_cases hc : name = "if"
  · subst hc
    exact enterCondition_within h hq
  have hl := leave_of_enter hq
  have hh : q = { p with column := q.column } := by
    have hn : ∀ q : Pass, q.leave (.ofName name) = q := by
      intro q
      simp only [Tag.ofName, ht, hc, if_false]
      split
      · rfl
      · split <;> rfl
    rwa [hn] at hl
  rw [hh]
  refine ⟨h.settled.cons ht, ?_, ?_⟩
  · rw [Compiler.formatIn_of_ne ht]
    exact h.format
  · rw [Compiler.isVisibleIn_of_ne hc]
    exact h.visible

mutual

theorem visit_follows (node : Node) {p : Pass} {around : List Opening} {before : List Site}
    (h : p.Within c around) (hk : p.column.pending.isEmpty = c.isFresh before) :
    Follows c before (sites around node) p.column (visit c node p) := by
  cases node with
  | text content => exact text_follows h hk content
  | aside =>
    exact .quiet h.settled hk rfl (by simp [Compiler.shownAt]) rfl rfl fun q hq => by cases hq; rfl
  | element name attributes children =>
    -- The element's own site comes before those of its children, and closing it touches no column.
    refine (enter_follows h hk name attributes children).bind fun q hq => ?_
    have hf := visitAll_follows children (enter_within h hq)
      ((enter_follows h hk name attributes children).pending q hq)
    exact hf.map_leave _

theorem visitAll_follows (nodes : List Node) {p : Pass} {around : List Opening} {before : List Site}
    (h : p.Within c around) (hk : p.column.pending.isEmpty = c.isFresh before) :
    Follows c before (sitesOfAll around nodes) p.column (visitAll c nodes p) := by
  cases nodes with
  | nil => exact .nil hk
  | cons node rest =>
    have hf := visit_follows node h hk
    refine hf.bind fun q hq => ?_
    have hq' := visit_balanced node hq
    exact visitAll_follows rest (hq' ▸ h.column q.column) (hf.pending q hq)

end

end Pass

namespace Compiler

variable {c : Compiler} {nodes : List Node} {maxWidth : Length}

theorem layout_follows (c : Compiler) (nodes : List Node) (maxWidth : Length) :
    Follows c [] (sitesOfAll [] nodes) { maxWidth }
      (Pass.visitAll c nodes { column := { maxWidth } }) := by
  have hw : Pass.Within { column := { maxWidth } } c [] := ⟨rfl, rfl, rfl⟩
  exact Pass.visitAll_follows nodes hw rfl

/-- A layout fails exactly when some site has an offence, and with the first one. -/
theorem layout_eq_error {f : Failure} : c.layout nodes maxWidth = .error f ↔
    c.firstOffence [] (sitesOfAll [] nodes) = some f := by
  rw [← (layout_follows c nodes maxWidth).failure, ← failure?_map _ (fun p => p.column.finish)]
  exact failure?_eq_some.symm

theorem firstOffence_of_layout {k : Column} (h : c.layout nodes maxWidth = .ok k) :
    c.firstOffence [] (sitesOfAll [] nodes) = none := by
  obtain ⟨p, hp, _⟩ := bind_eq_ok h
  rw [← (layout_follows c nodes maxWidth).failure]
  exact failure?_eq_none.mpr ⟨p, hp⟩

theorem exists_layout (h : c.firstOffence [] (sitesOfAll [] nodes) = none) (maxWidth : Length) :
    ∃ k, c.layout nodes maxWidth = .ok k := by
  cases hk : c.layout nodes maxWidth with
  | ok k => exact ⟨k, rfl⟩
  | error f =>
    rw [layout_eq_error.mp hk] at h
    cases h

theorem layout_at_any_width {k : Column} (h : c.layout nodes maxWidth = .ok k)
    (width : Length) : ∃ k', c.layout nodes width = .ok k' :=
  exists_layout (firstOffence_of_layout h) width

theorem layout_eq_ok {k : Column} (h : c.layout nodes maxWidth = .ok k) :
    k = .set maxWidth (c.stream nodes) := by
  obtain ⟨p, hp, h⟩ := bind_eq_ok h
  cases h
  rw [(layout_follows c nodes maxWidth).column p hp]
  rfl

theorem settled_of_layout {k : Column} (h : c.layout nodes maxWidth = .ok k) :
    ∀ s ∈ sitesOfAll [] nodes, c.Settled s.around := by
  obtain ⟨p, hp, _⟩ := bind_eq_ok h
  exact (layout_follows c nodes maxWidth).settled p hp

theorem fragment_of_parse {markup : String} (hn : Markup.parseFragment markup = .ok nodes) :
    c.fragment markup maxWidth = (do
      let k ← c.layout nodes maxWidth
      return ⟨k.elements, k.size, markup⟩) := by
  simp only [fragment, hn]
  rfl

theorem fragment_eq_ok {markup : String} {out : Compiled} (h : c.fragment markup maxWidth = .ok out) :
    ∃ nodes k, Markup.parseFragment markup = .ok nodes ∧ c.layout nodes maxWidth = .ok k ∧
      out = ⟨k.elements, k.size, markup⟩ := by
  obtain ⟨nodes, hn, h⟩ := bind_eq_ok h
  obtain ⟨k, hk, h⟩ := bind_eq_ok h
  cases h
  exact ⟨nodes, k, mapError_eq_ok.mp hn, hk, rfl⟩

theorem compile_of_parse {markup : String} (hn : Markup.parseFragment markup = .ok nodes) :
    c.compile markup maxWidth = (do
      let k ← c.layout nodes maxWidth
      return ({} : Compiled).append ⟨k.elements, k.size, markup⟩) := by
  rw [compile, fragment_of_parse hn]
  cases c.layout nodes maxWidth <;> rfl

theorem compile_of_fault {markup : String} {fault : Markup.Fault}
    (h : Markup.parseFragment markup = .error fault) (maxWidth : Length) :
    c.compile markup maxWidth = .error (.markup fault) := by
  rw [compile, fragment, h]
  rfl

theorem compile_of_layout {markup : String} {k : Column} (hn : Markup.parseFragment markup = .ok nodes)
    (hk : c.layout nodes maxWidth = .ok k) :
    c.compile markup maxWidth = .ok (({} : Compiled).append ⟨k.elements, k.size, markup⟩) := by
  rw [compile_of_parse hn, hk]
  rfl

theorem compileInto_of_ok {markup : String} {target more : Compiled}
    (h : c.fragment markup maxWidth = .ok more) :
    c.compileInto markup maxWidth target = (target.append more, none) := by
  delta compileInto
  rw [h]

theorem compileInto_of_error {markup : String} {target : Compiled} {f : Failure}
    (h : c.fragment markup maxWidth = .error f) :
    c.compileInto markup maxWidth target = (target, some f) := by
  delta compileInto
  rw [h]

end Compiler

end Galley
