import Galley.Proofs.Simulation

/-! The failure of a layout is the first offence of its tree. The width of a column has no part in it, and neither
have the measures of fonts and images, except where a font has none to give. -/

namespace Galley

open Markup (Node)

namespace Compiler

def offenceAt (c : Compiler) (before ss : List Site) (n : Nat) : Option Failure :=
  ss[n]?.bind fun s => c.offence ((ss.take n).reverse ++ before) s

structure Agrees (c c' : Compiler) : Prop where
  fonts : ∀ name e, c.fonts name = .error e ↔ c'.fonts name = .error e
  images : ∀ name e, c.images name = .error e ↔ c'.images name = .error e
  conditions : ∀ clause, c.conditions clause = c'.conditions clause
  strict : c.strict = c'.strict

/-- The same failure or none at all, if neither is an overflow. -/
def AlikeFailures (o o' : Option Failure) : Prop := o = o' ∨ o = some .overflow ∨ o' = some .overflow

variable {c c' : Compiler} {before : List Site}

theorem offenceAt_zero (s : Site) (ss : List Site) :
    c.offenceAt before (s :: ss) 0 = c.offence before s := rfl

theorem offenceAt_succ (s : Site) (ss : List Site) (n : Nat) :
    c.offenceAt before (s :: ss) (n + 1) = c.offenceAt (s :: before) ss n := by
  simp [offenceAt]

theorem firstOffence_eq_none {ss : List Site} :
    c.firstOffence before ss = none ↔ ∀ n, c.offenceAt before ss n = none := by
  induction ss generalizing before with
  | nil => simp [firstOffence, offenceAt]
  | cons s rest ih =>
    rw [firstOffence, Option.or_eq_none_iff, ih]
    constructor
    · rintro ⟨hs, hrest⟩ n
      cases n with
      | zero => exact hs
      | succ n => rw [offenceAt_succ, hrest n]
    · intro h
      exact ⟨h 0, fun n => by rw [← offenceAt_succ, h (n + 1)]⟩

theorem firstOffence_eq_some {ss : List Site} {f : Failure} : c.firstOffence before ss = some f ↔
    ∃ n, c.offenceAt before ss n = some f ∧ ∀ m < n, c.offenceAt before ss m = none := by
  induction ss generalizing before with
  | nil => simp [firstOffence, offenceAt]
  | cons s rest ih =>
    rw [firstOffence]
    cases hs : c.offence before s with
    | some g =>
      constructor
      · intro h
        exact ⟨0, hs.trans h, fun m hm => absurd hm (Nat.not_lt_zero m)⟩
      · rintro ⟨n, hn, hm⟩
        cases n with
        | zero => exact hs.symm.trans hn
        | succ n =>
          have hh := hm 0 (Nat.succ_pos n)
          rw [offenceAt_zero, hs] at hh
          cases hh
    | none =>
      rw [Option.none_or, ih]
      constructor
      · rintro ⟨n, hn, hm⟩
        refine ⟨n + 1, by rwa [offenceAt_succ], fun m hlt => ?_⟩
        cases m with
        | zero => exact hs
        | succ m => rw [offenceAt_succ, hm m (by omega)]
      · rintro ⟨n, hn, hm⟩
        cases n with
        | zero =>
          rw [offenceAt_zero, hs] at hn
          cases hn
        | succ n =>
          rw [offenceAt_succ] at hn
          exact ⟨n, hn, fun m hlt => by rw [← offenceAt_succ, hm (m + 1) (by omega)]⟩

theorem failure?_resolveBy {α : Type} {resource : Resource} {r r' : String → Except ResolveError α}
    (h : ∀ name e, r name = .error e ↔ r' name = .error e) (name : String) :
    failure? (resolveBy resource r name) = failure? (resolveBy resource r' name) := by
  rw [resolveBy, resolveBy]
  cases hr : r name with
  | error e => rw [(h name e).mp hr]
  | ok a =>
    cases hr' : r' name with
    | error e =>
      rw [(h name e).mpr hr'] at hr
      cases hr
    | ok a' => rfl

theorem AlikeFailures.or {o o' rest rest' : Option Failure} (h : AlikeFailures o o')
    (hrest : AlikeFailures rest rest') : AlikeFailures (o.or rest) (o'.or rest') := by
  rcases h with rfl | rfl | rfl
  · cases o with
    | none => exact hrest
    | some f => exact .inl rfl
  · exact .inr (.inl rfl)
  · exact .inr (.inr rfl)

theorem AlikeFailures.iff {o o' : Option Failure} (h : AlikeFailures o o') (hn : o ≠ some .overflow)
    (hn' : o' ≠ some .overflow) (f : Failure) : o = some f ↔ o' = some f := by
  rcases h with rfl | ho | ho
  · rfl
  · exact absurd ho hn
  · exact absurd ho hn'

/-- Fonts that are found in the same way may still differ in what they can measure. -/
theorem sizeOffence_alike (around : List Opening) (words : List String) :
    AlikeFailures (c.sizeOffence around words) (c'.sizeOffence around words) := by
  have hsize : ∀ c : Compiler, c.sizeOffence around words = none ∨ c.sizeOffence around words = some .overflow := by
    intro c
    cases h : c.sizeOffence around words with
    | none => exact .inl rfl
    | some f =>
      obtain ⟨format, -, h⟩ := Option.bind_eq_some_iff.mp h
      obtain ⟨text, -, h⟩ := List.exists_of_findSome?_eq_some h
      rw [failure?_eq_some, Format.measure] at h
      cases hm : format.font.measure text with
      | ok size =>
        rw [hm] at h
        cases h
      | error overflow =>
        rw [hm] at h
        cases h
        exact .inr rfl
  rcases hsize c with h | h
  · rcases hsize c' with h' | h'
    · exact .inl (h.trans h'.symm)
    · exact .inr (.inr h')
  · exact .inr (.inl h)

namespace Agrees

theorem isVisibleIn (h : Agrees c c') (around : List Opening) :
    c.isVisibleIn around = c'.isVisibleIn around := by
  have hh : c.holds = c'.holds := by
    funext clause
    rw [holds, holds, h.conditions]
  rw [Compiler.isVisibleIn, Compiler.isVisibleIn, hh]

theorem isFresh (h : Agrees c c') (before : List Site) : c.isFresh before = c'.isFresh before := by
  have hs : c.shownAt = c'.shownAt := by
    funext s
    rw [shownAt, shownAt, h.isVisibleIn]
  rw [Compiler.isFresh, Compiler.isFresh, hs]

theorem clauseOffence (h : Agrees c c') (attributes : Attributes) :
    c.clauseOffence attributes = c'.clauseOffence attributes := by
  simp only [Compiler.clauseOffence, resolveBy, h.conditions]

theorem imageOffence (h : Agrees c c') (attributes : Attributes) :
    c.imageOffence attributes = c'.imageOffence attributes := by
  simp only [Compiler.imageOffence, failure?_resolveBy h.images]

theorem offence (h : Agrees c c') (before : List Site) (s : Site) :
    AlikeFailures (c.offence before s) (c'.offence before s) := by
  have hfonts : ∀ around attributes, partOffence around attributes .font (resolveBy .font c.fonts) =
      partOffence around attributes .font (resolveBy .font c'.fonts) := by
    intro around attributes
    simp only [partOffence, failure?_resolveBy h.fonts]
  obtain ⟨around, node⟩ := s
  cases node with
  | text content =>
    simp only [Compiler.offence, h.isVisibleIn]
    split
    · split
      · exact sizeOffence_alike _ _
      · exact .inl rfl
    · exact .inl rfl
  | aside => exact .inl rfl
  | element name attributes children =>
    refine .inl ?_
    simp only [Compiler.offence, hfonts, h.isVisibleIn, h.isFresh, h.clauseOffence, h.imageOffence, h.strict]

theorem firstOffence (h : Agrees c c') (before ss : List Site) :
    AlikeFailures (c.firstOffence before ss) (c'.firstOffence before ss) := by
  induction ss generalizing before with
  | nil => exact .inl rfl
  | cons s rest ih => exact (h.offence before s).or (ih (s :: before))

end Agrees

theorem compile_eq_error {markup : String} {nodes : List Node} {maxWidth : Length} {f : Failure}
    (hn : Markup.parseFragment markup = .ok nodes) :
    c.compile markup maxWidth = .error f ↔ c.firstOffence [] (sitesOfAll [] nodes) = some f := by
  rw [compile_of_parse hn, ← failure?_eq_some, failure?_map, failure?_eq_some]
  exact layout_eq_error

/-- Compiling fails exactly when some node is at fault, with what is wrong with the first such node in
document order, and so at no width in another way. What fonts and images measure changes nothing either, unless
a text overflows. -/
theorem compile_fails_first {markup : String} {nodes : List Node} {maxWidth : Length}
    (hn : Markup.parseFragment markup = .ok nodes) :
    ((∃ f, c.compile markup maxWidth = .error f) ↔ ∃ n, c.offenceAt [] (sitesOfAll [] nodes) n ≠ none) ∧
    (∀ f, c.compile markup maxWidth = .error f ↔ ∃ n, c.offenceAt [] (sitesOfAll [] nodes) n = some f ∧
      ∀ m < n, c.offenceAt [] (sitesOfAll [] nodes) m = none) ∧
    (∀ width f, c.compile markup maxWidth = .error f ↔ c.compile markup width = .error f) ∧
    ∀ c' width, Agrees c c' → c.compile markup maxWidth ≠ .error .overflow →
      c'.compile markup width ≠ .error .overflow →
      ∀ f, c.compile markup maxWidth = .error f ↔ c'.compile markup width = .error f := by
  refine ⟨?_, fun f => ?_, fun width f => ?_, fun c' width h ho ho' f => ?_⟩
  · simp only [compile_eq_error hn, ← Option.isSome_iff_exists, Option.isSome_iff_ne_none, ne_eq,
      firstOffence_eq_none, not_forall]
  · rw [compile_eq_error hn, firstOffence_eq_some]
  · rw [compile_eq_error hn, compile_eq_error hn]
  · rw [ne_eq, compile_eq_error hn] at ho ho'
    rw [compile_eq_error hn, compile_eq_error hn]
    exact (h.firstOffence [] (sitesOfAll [] nodes)).iff ho ho' f

def unformattedMarkup : String := "<if clause=\"off\">a<br/></if><img/>"

def unformattedNodes : List Node :=
  [.element "if" [("clause", "off")] [.text "a", .element "br" [] []], .element "img" [] []]

theorem compile_fails_first_unformatted : Markup.parseFragment unformattedMarkup = .ok unformattedNodes ∧
    monospaced.compile unformattedMarkup 0 = .error (.missingFormat .font) := by
  have hn : Markup.parseFragment unformattedMarkup = .ok unformattedNodes := by cbv
  refine ⟨hn, ((compile_fails_first hn).2.1 _).mpr ⟨2, by decide +kernel, fun m hm => ?_⟩⟩
  obtain rfl | rfl : m = 0 ∨ m = 1 := by omega
  · decide +kernel
  · decide +kernel

end Compiler

end Galley
