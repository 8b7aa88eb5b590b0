import Mathlib
import Galley.Proofs.Inquiry
import Galley.Proofs.Remembering

/-! Tasks that share fonts and what these remember. A question takes a turn to look for a remembered width and,
where there is none, one more to remember the width that was measured; between the two any other task may
have its turns. The replies are those of fonts that remember nothing. -/

namespace Galley

variable {α : Type}

namespace SizedFont

/-- The width of a text by the face that is read anew from the data, if it can be read. -/
def reread? (f : SizedFont) (text : String) : Option (Except Overflow Length) :=
  match Sfnt.Face.read f.data with
  | .ok face => some ({ f with face }.width text)
  | .error _ => none

theorem Faithful.reread? {f : SizedFont} (h : f.Faithful) (text : String) : f.reread? text = some (f.width text) := by
  rw [SizedFont.reread?, h.read]

end SizedFont

/-- The size of a text in the font of a name. A name without a font has no sizes, and none is asked for. -/
def FontRegistry.sizeOf (r : FontRegistry) (name text : String) : Except Overflow Size :=
  match r.get? name with
  | some f => f.measure text
  | none => .ok {}

theorem FontRegistry.sizeOf_of_get? {r : FontRegistry} {name : String} {f : SizedFont} (h : r.get? name = some f)
    (text : String) : r.sizeOf name text = f.measure text := by
  rw [FontRegistry.sizeOf, h]

theorem FontRegistry.Sound.sizeOf_toFont {r : FontRegistry} (h : r.Sound) {name : String} {f : SizedFont}
    (hf : r.get? name = some f) (text : String) : r.sizeOf f.toFont.name text = f.toFont.measure text := by
  have hname : f.toFont.name = name := h.named hf
  rw [hname]
  exact FontRegistry.sizeOf_of_get? hf text

theorem FontRegistry.Agrees.sizeOf {r r' : FontRegistry} (h : r.Agrees r') : r.sizeOf = r'.sizeOf := by
  funext name text
  rw [FontRegistry.sizeOf, FontRegistry.sizeOf]
  cases hf : r.get? name with
  | some f =>
    obtain ⟨g, hg, hfresh⟩ := h.get? hf
    rw [hg]
    exact congrFun (SizedFont.measure_of_fresh hfresh.symm) text
  | none =>
    rw [h.get?_none hf]

/-- A task that either has a question or is about to have an answer remembered. -/
inductive Task (α : Type) where
  | asking (inquiry : Inquiry α)
  | storing (name text : String) (size : Size) (next : Size → Inquiry α)

namespace Task

/-- One turn of a task. What a font remembers is out of reach unless access to it is granted. -/
def step (fonts : FontRegistry) (granted : Bool) : Task α → FontRegistry × Task α
  | asking (.answer result) => (fonts, asking (.answer result))
  | asking (.measure name text next) =>
    match fonts.get? name with
    | none => (fonts, asking (next {}))
    | some f =>
      match if granted then f.cache.get? text else none with
      | some width => (fonts, asking (next ⟨width, f.height⟩))
      | none =>
        match f.reread? text with
        | some (.ok width) => (fonts, storing name text ⟨width, f.height⟩ next)
        | some (.error _) => (fonts, asking (.answer (.error .overflow)))
        | none => (fonts, asking (next ⟨0, f.height⟩))
  | storing name text size next =>
    match if granted then fonts.get? name else none with
    | some f => (fonts.put name (f.remember text size.width), asking (next size))
    | none => (fonts, asking (next size))

def answer? : Task α → Option (Except Failure α)
  | asking (.answer result) => some result
  | _ => none

variable {sizeOf : Sizes}

/-- What a task comes to if its questions have the answers of `sizeOf` from here on. -/
def result (sizeOf : Sizes) : Task α → Except Failure α
  | asking inquiry => inquiry.run sizeOf
  | storing _ _ size next => (next size).run sizeOf

/-- More turns than these a task does not need. -/
def turnsLeft (sizeOf : Sizes) : Task α → Nat
  | asking inquiry => 2 * inquiry.questions sizeOf
  | storing _ _ size next => 2 * (next size).questions sizeOf + 1

/-- What is about to be remembered is right. -/
def Honest (sizeOf : Sizes) : Task α → Prop
  | asking _ => True
  | storing name text size _ => sizeOf name text = .ok size

theorem result_of_answer? {t : Task α} {reply : Except Failure α} (h : t.answer? = some reply) :
    reply = t.result sizeOf := by
  cases t with
  | asking inquiry =>
    cases inquiry with
    | answer result => exact (Option.some.inj h).symm
    | measure name text next => cases h
  | storing name text size next => cases h

theorem answer?_of_turnsLeft {t : Task α} (h : t.turnsLeft sizeOf = 0) : t.answer? = some (t.result sizeOf) := by
  cases t with
  | asking inquiry =>
    cases inquiry with
    | answer result => rfl
    | measure name text next =>
      rw [turnsLeft, Inquiry.questions] at h
      split at h <;> omega
  | storing name text size next =>
    rw [turnsLeft] at h
    omega

/-- A turn leaves the fonts as they are but for what they remember, and does not change what the task comes
to, to which it is closer. -/
structure Leads (sizeOf : Sizes) (fonts : FontRegistry) (t : Task α)
    (next : FontRegistry × Task α) : Prop where
  sound : next.1.Sound
  agrees : fonts.Agrees next.1
  honest : next.2.Honest sizeOf
  result : next.2.result sizeOf = t.result sizeOf
  turnsLeft : next.2.turnsLeft sizeOf ≤ t.turnsLeft sizeOf - 1

section turns

variable {fonts fonts' : FontRegistry} {name text : String} {size : Size} {next : Size → Inquiry α}

theorem leads_asking (hr : fonts.Sound) (hs : sizeOf name text = .ok size) :
    Leads sizeOf fonts (asking (.measure name text next)) (fonts, asking (next size)) where
  sound := hr
  agrees := .refl fonts
  honest := trivial
  result := by rw [result, result, Inquiry.run, hs]
  turnsLeft := by
    rw [turnsLeft, turnsLeft, Inquiry.questions, hs]
    dsimp only
    omega

theorem leads_storing (hr : fonts.Sound) (hs : sizeOf name text = .ok size) :
    Leads sizeOf fonts (asking (.measure name text next)) (fonts, storing name text size next) where
  sound := hr
  agrees := .refl fonts
  honest := hs
  result := by rw [result, result, Inquiry.run, hs]
  turnsLeft := by
    rw [turnsLeft, turnsLeft, Inquiry.questions, hs]
    dsimp only
    omega

theorem leads_overflow (hr : fonts.Sound) (hs : sizeOf name text = .error {}) :
    Leads sizeOf fonts (asking (.measure name text next)) (fonts, asking (.answer (.error .overflow))) where
  sound := hr
  agrees := .refl fonts
  honest := trivial
  result := by rw [result, result, Inquiry.run, Inquiry.run, hs]
  turnsLeft := Nat.zero_le _

theorem leads_stored (hr : fonts'.Sound) (ha : fonts.Agrees fonts') :
    Leads sizeOf fonts (storing name text size next) (fonts', asking (next size)) where
  sound := hr
  agrees := ha
  honest := trivial
  result := rfl
  turnsLeft := le_rfl

theorem step_leads (hr : fonts.Sound) {t : Task α} (ht : t.Honest fonts.sizeOf) (granted : Bool) :
    Leads fonts.sizeOf fonts t (t.step fonts granted) := by
  cases t with
  | asking inquiry =>
    cases inquiry with
    | answer result => exact ⟨hr, .refl fonts, ht, rfl, Nat.zero_le _⟩
    | measure name text next =>
      cases hf : fonts.get? name with
      | none =>
        simp only [step, hf]
        exact leads_asking hr (by rw [FontRegistry.sizeOf, hf])
      | some f =>
        have hfont := hr.faithful hf
        have hsize := FontRegistry.sizeOf_of_get? hf text
        cases hw : if granted then f.cache.get? text else none with
        | some width =>
          have hknown : f.cache.get? text = some width := by
            cases granted with
            | false => cases hw
            | true => exact hw
          simp only [step, hf, hw]
          refine leads_asking hr ?_
          rw [hsize, SizedFont.measure, hfont.remembered hknown]
          rfl
        | none =>
          rw [SizedFont.measure] at hsize
          cases hwidth : f.width text with
          | ok width =>
            simp only [step, hf, hw, hfont.reread? text, hwidth]
            rw [hwidth] at hsize
            exact leads_storing hr hsize
          | error overflow =>
            simp only [step, hf, hw, hfont.reread? text, hwidth]
            rw [hwidth] at hsize
            exact leads_overflow hr hsize
  | storing name text size next =>
    cases hf : if granted then fonts.get? name else none with
    | none =>
      simp only [step, hf]
      exact leads_stored hr (.refl fonts)
    | some f =>
      have hget : fonts.get? name = some f := by
        cases granted with
        | false => cases hf
        | true => exact hf
      have hsize : f.measure text = .ok size := (FontRegistry.sizeOf_of_get? hget text).symm.trans ht
      have hkept : (f.remember text size.width).Faithful := by
        obtain ⟨width, hwidth, hsize⟩ := bind_eq_ok hsize
        cases hsize
        exact (hr.faithful hget).remember hwidth
      have hname : f.name = name := hr.named hget
      simp only [step, hf]
      exact leads_stored (hr.put hkept hname) (FontRegistry.agrees_put hget rfl)

/-- Without another task's turn in between, a question goes as a measurement of the font alone does. -/
theorem turns_of_measureCached (hr : fonts.Sound) {f : SizedFont} (hf : fonts.get? name = some f) :
    match f.cache.get? text, f.measureCached text with
    | some _, .ok (size, after) =>
      (asking (.measure name text next)).step fonts true = (fonts, asking (next size)) ∧ after = f
    | none, .ok (size, after) => ∃ t, (asking (.measure name text next)).step fonts true = (fonts, t) ∧
        t.step fonts true = (fonts.put name after, asking (next size))
    | _, .error _ =>
      (asking (.measure name text next)).step fonts true = (fonts, asking (.answer (.error .overflow))) := by
  cases hw : f.cache.get? text with
  | some width =>
    simp only [step, hf, if_true, hw, SizedFont.measureCached, and_self]
  | none =>
    rw [SizedFont.measureCached, hw]
    cases hwidth : f.width text with
    | ok width =>
      refine ⟨storing name text ⟨width, f.height⟩ next, ?_, ?_⟩
      · simp only [step, hf, if_true, hw, (hr.faithful hf).reread? text, hwidth]
      · simp only [step, hf, if_true]
        rfl
    | error overflow =>
      change (asking (.measure name text next)).step fonts true = _
      simp only [step, hf, if_true, hw, (hr.faithful hf).reread? text, hwidth]

end turns

end Task

/-- Fonts and the tasks that share them. -/
structure Sharing (α : Type) where
  fonts : FontRegistry
  tasks : List (Task α)

/-- Which task has its turn, and whether it is granted access to what a font remembers. -/
structure Turn where
  task : Nat
  granted : Bool

namespace Sharing

def start (fonts : FontRegistry) (inquiries : List (Inquiry α)) : Sharing α := ⟨fonts, inquiries.map .asking⟩

def step (s : Sharing α) (turn : Turn) : Sharing α :=
  match s.tasks[turn.task]? with
  | some t =>
    let (fonts, t) := t.step s.fonts turn.granted
    ⟨fonts, s.tasks.set turn.task t⟩
  | none => s

def run (s : Sharing α) (schedule : List Turn) : Sharing α := schedule.foldl step s

def answer? (s : Sharing α) (i : Nat) : Option (Except Failure α) := s.tasks[i]?.bind Task.answer?

/-- The turns that a task has. -/
def turns (schedule : List Turn) (i : Nat) : Nat := schedule.countP (·.task == i)

variable {s : Sharing α}

structure Sound (s : Sharing α) : Prop where
  fonts : s.fonts.Sound
  tasks : ∀ t ∈ s.tasks, t.Honest s.fonts.sizeOf

/-- A later state with the same fonts, in which each task comes to the same and has had its turns. -/
structure Follows (s later : Sharing α) (turns : Nat → Nat) : Prop where
  sound : later.Sound
  agrees : s.fonts.Agrees later.fonts
  task : ∀ i t, s.tasks[i]? = some t → ∃ t', later.tasks[i]? = some t' ∧
    t'.result s.fonts.sizeOf = t.result s.fonts.sizeOf ∧
    t'.turnsLeft s.fonts.sizeOf ≤ t.turnsLeft s.fonts.sizeOf - turns i

theorem Follows.refl (h : s.Sound) : s.Follows s (turns []) where
  sound := h
  agrees := .refl s.fonts
  task _ t ht := ⟨t, ht, rfl, le_rfl⟩

theorem Follows.trans {middle later : Sharing α} {first second : Nat → Nat} (h : s.Follows middle first)
    (h' : middle.Follows later second) : s.Follows later (fun i => first i + second i) where
  sound := h'.sound
  agrees := h.agrees.trans h'.agrees
  task i t ht := by
    obtain ⟨t₁, ht₁, hresult₁, hleft₁⟩ := h.task i t ht
    obtain ⟨t₂, ht₂, hresult₂, hleft₂⟩ := h'.task i t₁ ht₁
    rw [← h.agrees.sizeOf] at hresult₂ hleft₂
    refine ⟨t₂, ht₂, hresult₂.trans hresult₁, ?_⟩
    omega

theorem turns_singleton (turn : Turn) (i : Nat) : turns [turn] i = if turn.task = i then 1 else 0 := by
  rw [turns, List.countP_singleton]
  simp only [beq_iff_eq]

theorem turns_cons (turn : Turn) (schedule : List Turn) :
    turns (turn :: schedule) = fun i => turns [turn] i + turns schedule i := by
  funext i
  rw [turns, turns, turns, ← List.singleton_append, List.countP_append]

theorem step_follows (h : s.Sound) (turn : Turn) : s.Follows (s.step turn) (turns [turn]) := by
  rw [step]
  cases ht : s.tasks[turn.task]? with
  | none =>
    refine ⟨h, .refl s.fonts, fun i t hi => ⟨t, hi, rfl, ?_⟩⟩
    have hne : turn.task ≠ i := by
      rintro rfl
      rw [ht] at hi
      cases hi
    rw [turns_singleton, if_neg hne, Nat.sub_zero]
  | some t =>
    -- The other tasks know sizes by the fonts before the turn, which measure as those after it.
    have hl := Task.step_leads h.fonts (h.tasks t (List.mem_of_getElem? ht)) turn.granted
    refine ⟨⟨hl.sound, fun t' ht' => ?_⟩, hl.agrees, fun i t' hi => ?_⟩
    · change t'.Honest (t.step s.fonts turn.granted).1.sizeOf
      rw [← hl.agrees.sizeOf]
      rcases List.mem_or_eq_of_mem_set ht' with hmem | rfl
      · exact h.tasks t' hmem
      · exact hl.honest
    · rw [turns_singleton]
      by_cases hturn : turn.task = i
      · subst hturn
        rw [ht] at hi
        cases hi
        refine ⟨_, ?_, hl.result, ?_⟩
        · rw [List.getElem?_set_self (List.getElem?_eq_some_iff.mp ht).1]
        · rw [if_pos rfl]
          exact hl.turnsLeft
      · refine ⟨t', ?_, rfl, ?_⟩
        · rw [List.getElem?_set_ne hturn]
          exact hi
        · rw [if_neg hturn, Nat.sub_zero]

theorem run_follows (h : s.Sound) (schedule : List Turn) : s.Follows (s.run schedule) (turns schedule) := by
  induction schedule generalizing s with
  | nil => exact .refl h
  | cons turn schedule ih =>
    have hstep := step_follows h turn
    rw [turns_cons]
    exact hstep.trans (ih hstep.sound)

theorem sound_start {fonts : FontRegistry} (h : fonts.Sound) (inquiries : List (Inquiry α)) :
    (start fonts inquiries).Sound where
  fonts := h
  tasks t ht := by
    obtain ⟨inquiry, -, rfl⟩ := List.mem_map.mp ht
    trivial

/-- A task that has an answer has the one its questions lead to when nothing is remembered, and it has one as
soon as it had two turns for each question. -/
theorem answer?_run {fonts : FontRegistry} (h : fonts.Sound) {inquiries : List (Inquiry α)} {i : Nat}
    {inquiry : Inquiry α} (hi : inquiries[i]? = some inquiry) (schedule : List Turn) :
    (∀ reply, ((start fonts inquiries).run schedule).answer? i = some reply → reply = inquiry.run fonts.sizeOf) ∧
    (2 * inquiry.questions fonts.sizeOf ≤ turns schedule i →
      ((start fonts inquiries).run schedule).answer? i = some (inquiry.run fonts.sizeOf)) := by
  have ht : (start fonts inquiries).tasks[i]? = some (.asking inquiry) := by
    rw [start, List.getElem?_map, hi, Option.map_some]
  obtain ⟨t, hlater, hresult, hleft⟩ := (run_follows (sound_start h inquiries) schedule).task i _ ht
  change t.result fonts.sizeOf = inquiry.run fonts.sizeOf at hresult
  change t.turnsLeft fonts.sizeOf ≤ 2 * inquiry.questions fonts.sizeOf - turns schedule i at hleft
  rw [answer?, hlater, Option.bind_some, ← hresult]
  constructor
  · intro reply hreply
    exact Task.result_of_answer? hreply
  · intro hturns
    exact Task.answer?_of_turnsLeft (by omega)

end Sharing

end Galley
