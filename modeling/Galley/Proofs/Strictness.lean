import Galley.Proofs.Offence

/-! What strictness adds. A strict compiler finds fault with all that a lenient one finds fault with, in the same
way, and with elements of unknown names besides, which a lenient one never does. -/

namespace Galley

open Markup (Node)

/-- The name of an element that is neither of the four known ones. -/
def Site.unknown? (s : Site) : Option String :=
  match s.node with
  | .element name _ _ => if name ∈ ["text", "if", "br", "img"] then none else some name
  | _ => none

namespace Compiler

def strictly (c : Compiler) : Compiler := { c with strict := true }

def leniently (c : Compiler) : Compiler := { c with strict := false }

variable {c : Compiler} {before ss : List Site} {s : Site} {name : String}

theorem offence_of_unknown (h : s.unknown? = some name) :
    c.strictly.offence before s = some (.unsupportedElement name) ∧ c.leniently.offence before s = none := by
  obtain ⟨around, node⟩ := s
  cases node with
  | text content => cases h
  | aside => cases h
  | element n attributes children =>
    by_cases hn : n ∈ ["text", "if", "br", "img"]
    · simp [Site.unknown?, hn] at h
    · have he : n = name := by simpa [Site.unknown?, hn] using h
      simp only [List.mem_cons, List.not_mem_nil, or_false, not_or] at hn
      subst he
      simp [offence, hn, strictly, leniently]

theorem offence_of_known (h : s.unknown? = none) :
    c.strictly.offence before s = c.leniently.offence before s := by
  obtain ⟨around, node⟩ := s
  cases node with
  | text content => rfl
  | aside => rfl
  | element n attributes children =>
    by_cases hn : n ∈ ["text", "if", "br", "img"]
    · simp only [List.mem_cons, List.not_mem_nil, or_false] at hn
      rcases hn with rfl | rfl | rfl | rfl <;> rfl
    · simp [Site.unknown?, hn] at h

theorem failure?_mapError_ne {α ε : Type} {g : ε → Failure} {f : Failure} (hg : ∀ e, g e ≠ f)
    (r : Except ε α) : failure? (r.mapError g) ≠ some f := by
  cases r with
  | ok a => exact (Option.some_ne_none f).symm
  | error e => exact fun h => hg e (Option.some.inj h)

theorem or_ne_some {α : Type} {o o' : Option α} {a : α} (h : o ≠ some a) (h' : o' ≠ some a) :
    o.or o' ≠ some a := by
  cases o with
  | none => exact h'
  | some b => exact h

theorem partOffence_ne {α : Type} {part : FormatPart} {read : String → Except Failure α}
    (hr : ∀ value, failure? (read value) ≠ some (.unsupportedElement name)) (around : List Opening)
    (attributes : Attributes) : partOffence around attributes part read ≠ some (.unsupportedElement name) := by
  rw [partOffence]
  cases attributes.lookup part.name with
  | some value => exact hr value
  | none =>
    by_cases ht : isInText around = true
    · simp [ht]
    · simp [ht]

theorem clauseOffence_ne (attributes : Attributes) :
    c.clauseOffence attributes ≠ some (.unsupportedElement name) := by
  rw [clauseOffence]
  cases attributes.lookup "clause" with
  | some clause => exact failure?_mapError_ne (fun e h => by cases h) _
  | none =>
    intro h
    cases h

theorem imageOffence_ne (attributes : Attributes) :
    c.imageOffence attributes ≠ some (.unsupportedElement name) := by
  rw [imageOffence]
  cases attributes.lookup "src" with
  | some src =>
    refine or_ne_some ?_ (failure?_mapError_ne (fun e h => by cases h) _)
    cases attributes.lookup "color" with
    | some literal => exact failure?_mapError_ne (fun e h => by cases h) _
    | none => exact (Option.some_ne_none _).symm
  | none =>
    intro h
    cases h

theorem sizeOffence_ne (around : List Opening) (words : List String) :
    c.sizeOffence around words ≠ some (.unsupportedElement name) := by
  intro h
  obtain ⟨format, -, h⟩ := Option.bind_eq_some_iff.mp h
  obtain ⟨text, -, h⟩ := List.exists_of_findSome?_eq_some h
  exact failure?_mapError_ne (fun e h => by cases h) _ h

theorem ite_ne_some {α : Type} {P : Prop} [Decidable P] {o : Option α} {a : α} (h : o ≠ some a) :
    (if P then o else none) ≠ some a := by
  by_cases hp : P
  · rwa [if_pos hp]
  · rw [if_neg hp]
    exact (Option.some_ne_none a).symm

theorem offence_leniently_ne (before : List Site) (s : Site) (name : String) :
    c.leniently.offence before s ≠ some (.unsupportedElement name) := by
  obtain ⟨around, node⟩ := s
  cases node with
  | text content =>
    refine ite_ne_some ?_
    by_cases ht : isInText around = true
    · rw [if_pos ht]
      exact sizeOffence_ne _ _
    · rw [if_neg ht]
      exact fun h => by cases h
  | aside => exact (Option.some_ne_none _).symm
  | element n attributes children =>
    by_cases hn : n ∈ ["text", "if", "br", "img"]
    · simp only [List.mem_cons, List.not_mem_nil, or_false] at hn
      rcases hn with rfl | rfl | rfl | rfl
      · exact or_ne_some (partOffence_ne (fun _ => failure?_mapError_ne (fun e h => by cases h) _) _ _)
          (partOffence_ne (fun _ => failure?_mapError_ne (fun e h => by cases h) _) _ _)
      · exact clauseOffence_ne attributes
      · rw [offence_break]
        exact ite_ne_some fun h => by cases h
      · exact ite_ne_some (imageOffence_ne attributes)
    · have hs : Site.unknown? ⟨around, .element n attributes children⟩ = some n := if_neg hn
      rw [(offence_of_unknown hs).2]
      exact (Option.some_ne_none _).symm

/-- What a strict compiler finds at a node, by what a lenient one finds there. -/
theorem offenceAt_strictly (n : Nat) : c.strictly.offenceAt [] ss n =
    ((ss[n]?.bind Site.unknown?).map .unsupportedElement).or (c.leniently.offenceAt [] ss n) := by
  rw [offenceAt, offenceAt]
  cases ss[n]? with
  | none => rfl
  | some s =>
    simp only [Option.bind_some]
    cases hs : s.unknown? with
    | none => exact offence_of_known hs
    | some name => exact (offence_of_unknown hs).1

theorem offenceAt_strictly_eq_none {n : Nat} : c.strictly.offenceAt [] ss n = none ↔
    ss[n]?.bind Site.unknown? = none ∧ c.leniently.offenceAt [] ss n = none := by
  rw [offenceAt_strictly, Option.or_eq_none_iff, Option.map_eq_none_iff]

theorem offenceAt_leniently_ne (n : Nat) : c.leniently.offenceAt [] ss n ≠ some (.unsupportedElement name) := by
  rw [offenceAt]
  cases ss[n]? with
  | none => exact (Option.some_ne_none _).symm
  | some s => exact offence_leniently_ne _ s name

theorem offenceAt_strictly_eq_unsupported {n : Nat} :
    c.strictly.offenceAt [] ss n = some (.unsupportedElement name) ↔ ss[n]?.bind Site.unknown? = some name := by
  rw [offenceAt_strictly]
  cases ss[n]?.bind Site.unknown? with
  | some unknown => simp
  | none =>
    rw [Option.map_none, Option.none_or]
    exact ⟨fun h => absurd h (offenceAt_leniently_ne n), fun h => by cases h⟩

theorem firstOffence_strictly_eq_unsupported :
    c.strictly.firstOffence [] ss = some (.unsupportedElement name) ↔
      ∃ n, ss[n]?.bind Site.unknown? = some name ∧
        ∀ m < n, ss[m]?.bind Site.unknown? = none ∧ c.leniently.offenceAt [] ss m = none := by
  simp only [firstOffence_eq_some, offenceAt_strictly_eq_unsupported, offenceAt_strictly_eq_none]

theorem firstOffence_leniently_of_strictly {f : Failure} (h : c.strictly.firstOffence [] ss = some f)
    (hf : ∀ name, f ≠ .unsupportedElement name) : c.leniently.firstOffence [] ss = some f := by
  obtain ⟨n, hn, hbefore⟩ := firstOffence_eq_some.mp h
  refine firstOffence_eq_some.mpr ⟨n, ?_, fun m hm => (offenceAt_strictly_eq_none.mp (hbefore m hm)).2⟩
  rw [offenceAt_strictly] at hn
  cases hs : ss[n]?.bind Site.unknown? with
  | none => rwa [hs] at hn
  | some name =>
    rw [hs] at hn
    exact absurd (Option.some.inj hn).symm (hf name)

theorem layout_leniently_of_strictly {nodes : List Node} {maxWidth : Length} {k : Column}
    (h : c.strictly.layout nodes maxWidth = .ok k) : c.leniently.layout nodes maxWidth = .ok k := by
  have hstrict := firstOffence_eq_none.mp (firstOffence_of_layout h)
  have hlenient : c.leniently.firstOffence [] (sitesOfAll [] nodes) = none :=
    firstOffence_eq_none.mpr fun n => (offenceAt_strictly_eq_none.mp (hstrict n)).2
  cases hk : c.leniently.layout nodes maxWidth with
  | error f =>
    rw [layout_eq_error.mp hk] at hlenient
    cases hlenient
  | ok k' =>
    -- The pieces of a tree do not depend on strictness.
    rw [layout_eq_ok h, layout_eq_ok hk]
    rfl

/-- A strict compiler gives what a lenient one gives, or the same failure, or it stops at the first unknown
element, and that only where a lenient one has met nothing at fault before. The last part says what a lenient
one meets: it fails with what is at fault at the first node where something is. -/
theorem strictly_restricts (c : Compiler) (markup : String) (maxWidth : Length) :
    (∀ out, c.strictly.compile markup maxWidth = .ok out → c.leniently.compile markup maxWidth = .ok out) ∧
    (∀ f, c.strictly.compile markup maxWidth = .error f → (∀ name, f ≠ .unsupportedElement name) →
      c.leniently.compile markup maxWidth = .error f) ∧
    (∀ name, c.strictly.compile markup maxWidth = .error (.unsupportedElement name) ↔
      ∃ nodes, Markup.parseFragment markup = .ok nodes ∧
        ∃ n, (sitesOfAll [] nodes)[n]?.bind Site.unknown? = some name ∧
          ∀ m < n, (sitesOfAll [] nodes)[m]?.bind Site.unknown? = none ∧
            c.leniently.offenceAt [] (sitesOfAll [] nodes) m = none) ∧
    ∀ nodes f, Markup.parseFragment markup = .ok nodes → (c.leniently.compile markup maxWidth = .error f ↔
      ∃ n, c.leniently.offenceAt [] (sitesOfAll [] nodes) n = some f ∧
        ∀ m < n, c.leniently.offenceAt [] (sitesOfAll [] nodes) m = none) := by
  cases hn : Markup.parseFragment markup with
  | error fault =>
    rw [compile_of_fault hn, compile_of_fault hn]
    refine ⟨fun out h => h, fun f h _ => h, fun name => ⟨fun h => ?_, fun h => ?_⟩, fun nodes f he => ?_⟩
    · cases h
    · obtain ⟨nodes, he, -⟩ := h
      cases he
    · cases he
  | ok nodes =>
    refine ⟨fun out h => ?_, fun f h hf => ?_, fun name => ?_, fun nodes' f he => ?_⟩
    · rw [compile_of_parse hn] at h ⊢
      obtain ⟨k, hk, hout⟩ := bind_eq_ok h
      rw [layout_leniently_of_strictly hk]
      exact hout
    · rw [compile_eq_error hn] at h ⊢
      exact firstOffence_leniently_of_strictly h hf
    · rw [compile_eq_error hn, firstOffence_strictly_eq_unsupported]
      constructor
      · intro h
        exact ⟨nodes, rfl, h⟩
      · rintro ⟨nodes', he, h⟩
        cases he
        exact h
    · cases he
      rw [compile_eq_error hn, firstOffence_eq_some]

def blinkingMarkup : String := "<if clause=\"off\">a<blink>b</blink></if><img/>"

def blinkingNodes : List Node :=
  [.element "if" [("clause", "off")] [.text "a", .element "blink" [] [.text "b"]], .element "img" [] []]

theorem strictly_restricts_blinking :
    (∃ out, monospaced.strictly.compile wrappedMarkup 0 = .ok out ∧
      monospaced.leniently.compile wrappedMarkup 0 = .ok out) ∧
    (monospaced.strictly.compile unformattedMarkup 0 = .error (.missingFormat .font) ∧
      monospaced.leniently.compile unformattedMarkup 0 = .error (.missingFormat .font)) ∧
    Markup.parseFragment blinkingMarkup = .ok blinkingNodes ∧
    monospaced.strictly.compile blinkingMarkup 0 = .error (.unsupportedElement "blink") ∧
    monospaced.leniently.compile blinkingMarkup 0 = .error (.missingAttribute "img" "src") := by
  have hn : Markup.parseFragment blinkingMarkup = .ok blinkingNodes := by cbv
  have hf : failure? (monospaced.strictly.layout wrappedNodes 0) = none := by decide +kernel
  obtain ⟨k, hk⟩ := failure?_eq_none.mp hf
  have hout := compile_of_layout wrapped_parses hk
  have hu : monospaced.strictly.compile unformattedMarkup 0 = .error (.missingFormat .font) := by
    have hnodes : Markup.parseFragment unformattedMarkup = .ok unformattedNodes := by cbv
    exact (compile_eq_error hnodes).mpr (by decide +kernel)
  refine ⟨⟨_, hout, (strictly_restricts _ _ _).1 _ hout⟩,
    ⟨hu, (strictly_restricts _ _ _).2.1 _ hu (fun name h => by cases h)⟩, hn, ?_, ?_⟩
  · refine ((strictly_restricts _ _ _).2.2.1 _).mpr ⟨blinkingNodes, hn, 2, by decide +kernel, fun m hm => ?_⟩
    obtain rfl | rfl : m = 0 ∨ m = 1 := by omega
    · decide +kernel
    · decide +kernel
  · refine ((strictly_restricts _ _ _).2.2.2 _ _ hn).mpr ⟨4, by decide +kernel, fun m hm => ?_⟩
    obtain rfl | rfl | rfl | rfl : m = 0 ∨ m = 1 ∨ m = 2 ∨ m = 3 := by omega
    all_goals decide +kernel

end Compiler

end Galley
