import Galley.Proofs.Site

/-! What a pass has open. A visited tree leaves open what it found open, and inside an element that is what
the elements around a node say. -/

namespace Galley

open Markup (Node)

namespace Pass

variable {c : Compiler} {p q : Pass} {attributes : Attributes}

theorem leave_of_enter {tag : Tag} (h : p.enter c tag attributes = .ok q) :
    q.leave tag = { p with column := q.column } := by
  cases tag with
  | text =>
    obtain ⟨font, _, h⟩ := bind_eq_ok h
    obtain ⟨color, _, h⟩ := bind_eq_ok h
    cases h
    rfl
  | condition =>
    obtain ⟨clause, _, h⟩ := bind_eq_ok h
    obtain ⟨answer, _, h⟩ := bind_eq_ok h
    cases h
    rfl
  | lineBreak =>
    obtain ⟨column, _, h⟩ := bind_eq_ok h
    cases h
    rfl
  | image =>
    change p.image c attributes = .ok q at h
    rw [image] at h
    split at h
    · cases h
      rfl
    · obtain ⟨src, _, h⟩ := bind_eq_ok h
      obtain ⟨tint, _, h⟩ := bind_eq_ok h
      obtain ⟨image, _, h⟩ := bind_eq_ok h
      cases h
      rfl
  | other name =>
    cases hs : c.strict with
    | true => simp [enter, hs] at h
    | false =>
      simp only [enter, hs] at h
      cases h
      rfl

theorem text_balanced {content : String} (h : p.text content = .ok q) :
    q = { p with column := q.column } := by
  simp only [text] at h
  split at h
  · cases h
    rfl
  · obtain ⟨format, _, h⟩ := bind_eq_ok h
    obtain ⟨column, _, h⟩ := bind_eq_ok h
    cases h
    rfl

theorem leave_column (q : Pass) (k : Column) (tag : Tag) :
    { q with column := k }.leave tag = { q.leave tag with column := k } := by
  cases tag <;> rfl

mutual

theorem visit_balanced (node : Node) {p q : Pass} (h : visit c node p = .ok q) :
    q = { p with column := q.column } := by
  cases node with
  | text content => exact text_balanced h
  | aside => cases h; rfl
  | element name attributes children =>
    obtain ⟨p₁, h₁, h⟩ := bind_eq_ok h
    obtain ⟨p₂, h₂, h⟩ := bind_eq_ok h
    cases h
    rw [visitAll_balanced children h₂, leave_column, leave_of_enter h₁]

theorem visitAll_balanced (nodes : List Node) {p q : Pass} (h : visitAll c nodes p = .ok q) :
    q = { p with column := q.column } := by
  cases nodes with
  | nil => cases h; rfl
  | cons node rest =>
    obtain ⟨p₁, h₁, h⟩ := bind_eq_ok h
    rw [visitAll_balanced rest h, visit_balanced node h₁]

end

end Pass

namespace Pass

/-- What a pass has open says what the elements around a node say. -/
structure Within (p : Pass) (c : Compiler) (around : List Opening) : Prop where
  settled : c.Settled around
  format : p.formats.head? = c.formatIn around
  visible : p.isVisible = c.isVisibleIn around

variable {c : Compiler} {around : List Opening} {p q : Pass} {attributes : Attributes}

theorem Within.column (h : p.Within c around) (k : Column) : { p with column := k }.Within c around :=
  ⟨h.settled, h.format, h.visible⟩

theorem Within.formats_nil (h : p.Within c around) (hp : p.formats = []) : isInText around = false := by
  have hf := h.format
  have hs := h.settled
  rw [hp] at hf
  rw [Compiler.Settled, ← hf] at hs
  exact hs.symm

theorem Within.formats_cons (h : p.Within c around) {outer : Format} {rest : List Format}
    (hp : p.formats = outer :: rest) : c.formatIn around = some outer ∧ isInText around = true := by
  have hf := h.format
  have hs := h.settled
  rw [hp] at hf
  rw [Compiler.Settled, ← hf] at hs
  exact ⟨hf.symm, hs.symm⟩

section parts

variable {α : Type} {part : FormatPart} {read : String → Except Failure α} {inherit : Format → α}

theorem formatPart_failure (h : p.Within c around) : failure? (p.formatPart attributes part read inherit) =
    Compiler.partOffence around attributes part read := by
  simp only [formatPart, Compiler.partOffence]
  cases attributes.lookup part.name with
  | some value => rfl
  | none =>
    cases hp : p.formats with
    | nil => simp [failure?, h.formats_nil hp]
    | cons outer rest => simp [failure?, (h.formats_cons hp).2]

theorem formatPart_nearest (h : p.Within c around)
    (hi : ∀ format, c.formatIn around = some format →
      ∃ value, nearestInText part.name around = some value ∧ read value = .ok (inherit format))
    {a : α} (ha : p.formatPart attributes part read inherit = .ok a) :
    ∃ value, nearestInText part.name (⟨"text", attributes⟩ :: around) = some value ∧ read value = .ok a := by
  rw [formatPart] at ha
  cases hl : attributes.lookup part.name with
  | some value =>
    rw [hl] at ha
    exact ⟨value, nearestInText_of_lookup hl, ha⟩
  | none =>
    rw [nearestInText_of_inherited hl]
    cases hp : p.formats with
    | nil => simp [hl, hp] at ha
    | cons outer rest =>
      simp only [hl, hp, Except.ok.injEq] at ha
      exact ha ▸ hi outer (h.formats_cons hp).1

end parts

theorem enterText_failure (h : p.Within c around) : failure? (p.enterText c attributes) =
    (Compiler.partOffence around attributes .font (resolveBy .font c.fonts)).or
      (Compiler.partOffence around attributes .color readColor) := by
  refine (failure?_bind fun font _ => ?_).trans (congrArg (Option.or · _) (formatPart_failure h))
  exact (failure?_map _ _).trans (formatPart_failure h)

theorem enterText_within (h : p.Within c around) (hq : p.enterText c attributes = .ok q) :
    q.Within c (⟨"text", attributes⟩ :: around) := by
  obtain ⟨font, hf, hq⟩ := bind_eq_ok hq
  obtain ⟨color, hc, hq⟩ := bind_eq_ok hq
  obtain ⟨name, hn, hf⟩ := formatPart_nearest h (fun format hh => by
    obtain ⟨name, hn, hr⟩ := (Compiler.formatIn_eq_some.mp hh).1
    exact ⟨name, hn, mapError_eq_ok.mpr hr⟩) hf
  obtain ⟨literal, hl, hc⟩ := formatPart_nearest h (fun format hh => by
    obtain ⟨literal, hl, hr⟩ := (Compiler.formatIn_eq_some.mp hh).2
    exact ⟨literal, hl, mapError_eq_ok.mpr hr⟩) hc
  have hh : c.formatIn (⟨"text", attributes⟩ :: around) = some ⟨font, color⟩ :=
    Compiler.formatIn_eq_some.mpr ⟨⟨name, hn, mapError_eq_ok.mp hf⟩, literal, hl, mapError_eq_ok.mp hc⟩
  cases hq
  refine ⟨?_, hh.symm, ?_⟩
  · rw [Compiler.Settled, hh]
    rfl
  · rw [Compiler.isVisibleIn_of_ne (by decide)]
    exact h.visible

theorem enterCondition_failure : failure? (p.enterCondition c attributes) = c.clauseOffence attributes := by
  simp only [enterCondition, Compiler.clauseOffence, Attributes.required]
  cases attributes.lookup "clause" with
  | none => rfl
  | some clause => exact failure?_map _ _

theorem enterCondition_within (h : p.Within c around) (hq : p.enterCondition c attributes = .ok q) :
    q.Within c (⟨"if", attributes⟩ :: around) := by
  obtain ⟨clause, hl, hq⟩ := bind_eq_ok hq
  obtain ⟨answer, ha, hq⟩ := bind_eq_ok hq
  cases hq
  refine ⟨h.settled.cons (by decide), ?_, ?_⟩
  · rw [Compiler.formatIn_of_ne (by decide)]
    exact h.format
  · have ha' : c.conditions clause = .ok answer := mapError_eq_ok.mp ha
    simp [Compiler.isVisibleIn, required_eq_ok hl, Compiler.holds, ha', isVisible]

end Pass

end Galley
