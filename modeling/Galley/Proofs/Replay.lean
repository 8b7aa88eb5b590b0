import Mathlib
import Galley.Canvas

/-! A canvas against a host that replays what it recorded. The commands of a canvas are all that would set
fonts and colors for every text, without those that change nothing. A host draws the same from both. -/

namespace Galley

/-- The fill and the font in force for whoever replays commands. -/
structure Graphics where
  fill : Option Color := none
  font : Option String := none
  deriving DecidableEq

inductive Drawn where
  | text (text : String) (position : Point) (size : Size) (font : Option String) (fill : Option Color)
  | image (name : String) (tint : Color) (position : Point) (size : Size)
  deriving DecidableEq

namespace Graphics

def after (g : Graphics) : Command → Graphics
  | .setFill color => { g with fill := some color }
  | .setFont name => { g with font := some name }
  | _ => g

def afterAll (g : Graphics) (commands : List Command) : Graphics := commands.foldl after g

def drawn (g : Graphics) : Command → List Drawn
  | .drawString text position size => [.text text position size g.font g.fill]
  | .drawImage name tint position size => [.image name tint position size]
  | _ => []

def replay (g : Graphics) : List Command → List Drawn
  | [] => []
  | command :: rest => g.drawn command ++ (g.after command).replay rest

/-- Leaves out every command that draws nothing and sets what is in force. -/
def elide (g : Graphics) : List Command → List Command
  | [] => []
  | command :: rest =>
    if g.drawn command = [] ∧ g.after command = g then g.elide rest
    else command :: (g.after command).elide rest

variable (g : Graphics)

theorem afterAll_append (as bs : List Command) : g.afterAll (as ++ bs) = (g.afterAll as).afterAll bs :=
  List.foldl_append

theorem replay_append (as bs : List Command) :
    g.replay (as ++ bs) = g.replay as ++ (g.afterAll as).replay bs := by
  induction as generalizing g with
  | nil => rfl
  | cons command as ih =>
    simp only [List.cons_append, replay, ih, List.append_assoc]
    rfl

theorem elide_append (as bs : List Command) :
    g.elide (as ++ bs) = g.elide as ++ (g.afterAll as).elide bs := by
  induction as generalizing g with
  | nil => rfl
  | cons command as ih =>
    have ha : g.afterAll (command :: as) = (g.after command).afterAll as := rfl
    simp only [List.cons_append, elide, ih, ha]
    split
    · next h => rw [h.2]
    · rfl

theorem replay_flatMap {α : Type} {write : α → List Command} {shown : α → List Drawn}
    (h : ∀ g a, replay g (write a) = shown a) (as : List α) :
    g.replay (as.flatMap write) = as.flatMap shown := by
  induction as generalizing g with
  | nil => rfl
  | cons a as ih => rw [List.flatMap_cons, replay_append, h, ih, List.flatMap_cons]

theorem replay_elide (commands : List Command) : g.replay (g.elide commands) = g.replay commands := by
  induction commands generalizing g with
  | nil => rfl
  | cons command rest ih =>
    rw [elide, replay]
    split
    · next h => rw [h.1, h.2, ih, List.nil_append]
    · rw [replay, ih]

theorem elide_keeps {commands before rest : List Command} {command : Command}
    (h : g.elide commands = before ++ command :: rest) :
    ¬ ((g.afterAll before).drawn command = [] ∧ (g.afterAll before).after command = g.afterAll before) := by
  induction commands generalizing g before with
  | nil => simp [elide] at h
  | cons first commands ih =>
    rw [elide] at h
    split at h
    · exact ih g h
    · next hfirst =>
      cases before with
      | nil =>
        obtain ⟨he, _⟩ := List.cons.inj h
        exact he ▸ hfirst
      | cons other before =>
        obtain ⟨he, ht⟩ := List.cons.inj h
        subst he
        exact ih (g.after first) ht

/-- What is in force was in force from the start or has been set. -/
theorem part_afterAll {α : Type} {part : Graphics → Option α} {set : α → Command}
    (hset : ∀ g command a, part (after g command) = some a → part g = some a ∨ command = set a)
    {commands : List Command} {a : α} (h : part (g.afterAll commands) = some a) :
    part g = some a ∨ set a ∈ commands := by
  induction commands generalizing g with
  | nil => exact .inl h
  | cons command rest ih =>
    rcases ih (g.after command) h with h | h
    · rcases hset g command a h with h | rfl
      · exact .inl h
      · exact .inr List.mem_cons_self
    · exact .inr (List.mem_cons_of_mem _ h)

theorem font_afterAll {commands : List Command} {name : String} (h : (g.afterAll commands).font = some name) :
    g.font = some name ∨ .setFont name ∈ commands := by
  refine part_afterAll g (fun g command name h => ?_) h
  cases command with
  | setFont other => exact .inr (congrArg _ (Option.some.inj h))
  | _ => exact .inl h

theorem fill_afterAll {commands : List Command} {color : Color} (h : (g.afterAll commands).fill = some color) :
    g.fill = some color ∨ .setFill color ∈ commands := by
  refine part_afterAll g (fun g command color h => ?_) h
  cases command with
  | setFill other => exact .inr (congrArg _ (Option.some.inj h))
  | _ => exact .inl h

end Graphics

def textCommands (position : Point) (size : Size) (text : String) (format : Format) : List Command :=
  [.setFont format.font.name, .setFill format.color, .drawString text position size]

def Drawn.ofText (position : Point) (size : Size) (text : String) (format : Format) : Drawn :=
  .text text position size (some format.font.name) (some format.color)

namespace Element

def commands (e : Element) (offset : Point) : List Command :=
  match e.body with
  | .word text format => textCommands (e.position + offset) e.size text format
  | .image image tint => [.drawImage image.name tint (e.position + offset) e.size]

def drawn (e : Element) (offset : Point) : Drawn :=
  match e.body with
  | .word text format => .ofText (e.position + offset) e.size text format
  | .image image tint => .image image.name tint (e.position + offset) e.size

theorem replay_commands (e : Element) (g : Graphics) (offset : Point) :
    g.replay (e.commands offset) = [e.drawn offset] := by
  rw [commands, drawn]
  cases e.body <;> rfl

end Element

namespace Canvas

inductive Operation where
  | draw (compiled : Compiled) (offset : Point)
  | drawText (position : Point) (size : Size) (text : String) (format : Format)
  | drawImage (position : Point) (size : Size) (image : Image) (tint : Color)
  | setFont (name : String)
  | setFill (color : Color)
  | clear

namespace Operation

/-- What a recorder writes that sets the font and the color for every text. -/
def commands : Operation → List Command
  | draw compiled offset => compiled.elements.flatMap (Element.commands · offset)
  | drawText position size text format => textCommands position size text format
  | drawImage position size image tint => [.drawImage image.name tint position size]
  | setFont name => [.setFont name]
  | setFill color => [.setFill color]
  | clear => []

def drawn : Operation → List Drawn
  | draw compiled offset => compiled.elements.map (Element.drawn · offset)
  | drawText position size text format => [.ofText position size text format]
  | drawImage position size image tint => [.image image.name tint position size]
  | _ => []

def isClear : Operation → Bool
  | clear => true
  | _ => false

theorem replay_commands (g : Graphics) (operation : Operation) :
    g.replay operation.commands = operation.drawn := by
  cases operation with
  | draw compiled offset =>
    rw [commands, drawn, List.map_eq_flatMap]
    exact g.replay_flatMap (fun g e => e.replay_commands g offset) compiled.elements
  | _ => rfl

theorem isClear_eq_true {operation : Operation} : operation.isClear = true ↔ operation = clear := by
  cases operation <;> simp [isClear]

end Operation

def perform (c : Canvas) : Operation → Canvas
  | .draw compiled offset => compiled.draw c offset
  | .drawText position size text format => c.drawText position size text format
  | .drawImage position size image tint => c.drawImage position size image tint
  | .setFont name => c.setFont name
  | .setFill color => c.setFill color
  | .clear => c.clear

def run (operations : List Operation) : Canvas := operations.foldl perform {}

def sinceClear (operations : List Operation) : List Operation :=
  (operations.reverse.takeWhile fun operation => !operation.isClear).reverse

def verbatim (operations : List Operation) : List Command :=
  (sinceClear operations).flatMap Operation.commands

def state (c : Canvas) : Graphics := ⟨c.fill, c.font⟩

/-- One canvas is another with more written on it, but for what its state makes needless. -/
structure Elides (c c' : Canvas) (written : List Command) : Prop where
  commands : c'.commands = c.commands ++ c.state.elide written
  state : c'.state = c.state.afterAll written

namespace Elides

variable {c c' c'' : Canvas}

theorem refl (c : Canvas) : Elides c c [] := ⟨(List.append_nil _).symm, rfl⟩

theorem trans {as bs : List Command} (h : Elides c c' as) (h' : Elides c' c'' bs) :
    Elides c c'' (as ++ bs) where
  commands := by rw [h'.commands, h.commands, h.state, Graphics.elide_append, List.append_assoc]
  state := by rw [h'.state, h.state, Graphics.afterAll_append]

theorem skip {command : Command} (hd : c.state.drawn command = []) (ha : c.state.after command = c.state) :
    Elides c c [command] where
  commands := by simp [Graphics.elide, hd, ha]
  state := ha.symm

theorem push {command : Command} (hn : c.state.drawn command = [] → c.state.after command ≠ c.state)
    (hr : c'.recorded = command :: c.recorded) (hs : c'.state = c.state.after command) :
    Elides c c' [command] where
  commands := by
    have he : c.state.elide [command] = [command] := by simpa [Graphics.elide] using hn
    rw [he, Canvas.commands, Canvas.commands, hr, List.reverse_cons]
  state := hs

end Elides

theorem setFont_elides (c : Canvas) (name : String) : Elides c (c.setFont name) [.setFont name] := by
  by_cases h : c.font = some name
  · rw [setFont, if_pos h]
    exact .skip rfl (by simp [Graphics.after, state, h])
  · rw [setFont, if_neg h]
    refine .push (fun _ ha => h ?_) rfl rfl
    exact (congrArg Graphics.font ha).symm

theorem setFill_elides (c : Canvas) (color : Color) : Elides c (c.setFill color) [.setFill color] := by
  by_cases h : c.fill = some color
  · rw [setFill, if_pos h]
    exact .skip rfl (by simp [Graphics.after, state, h])
  · rw [setFill, if_neg h]
    refine .push (fun _ ha => h ?_) rfl rfl
    exact (congrArg Graphics.fill ha).symm

theorem drawText_elides (c : Canvas) (position : Point) (size : Size) (text : String) (format : Format) :
    Elides c (c.drawText position size text format) (textCommands position size text format) := by
  have hset := (setFont_elides c format.font.name).trans (setFill_elides _ format.color)
  exact hset.trans (.push (by simp [Graphics.drawn]) rfl rfl)

theorem drawImage_elides (c : Canvas) (position : Point) (size : Size) (image : Image) (tint : Color) :
    Elides c (c.drawImage position size image tint) [.drawImage image.name tint position size] :=
  .push (by simp [Graphics.drawn]) rfl rfl

theorem element_elides (c : Canvas) (e : Element) (offset : Point) :
    Elides c (e.draw c offset) (e.commands offset) := by
  rw [Element.draw, Element.commands]
  cases e.body with
  | word text format => exact drawText_elides c _ _ text format
  | image image tint => exact drawImage_elides c _ _ image tint

theorem draw_elides (c : Canvas) (elements : List Element) (offset : Point) :
    Elides c (elements.foldl (fun c e => e.draw c offset) c) (elements.flatMap (Element.commands · offset)) := by
  induction elements generalizing c with
  | nil => exact .refl c
  | cons e rest ih => exact (element_elides c e offset).trans (ih _)

theorem perform_elides (c : Canvas) {operation : Operation} (h : operation.isClear = false) :
    Elides c (c.perform operation) operation.commands := by
  cases operation with
  | draw compiled offset => exact draw_elides c compiled.elements offset
  | drawText position size text format => exact drawText_elides c position size text format
  | drawImage position size image tint => exact drawImage_elides c position size image tint
  | setFont name => exact setFont_elides c name
  | setFill color => exact setFill_elides c color
  | clear => cases h

theorem sinceClear_append (operations : List Operation) {operation : Operation} (h : operation.isClear = false) :
    sinceClear (operations ++ [operation]) = sinceClear operations ++ [operation] := by
  simp [sinceClear, h]

theorem sinceClear_clear (operations : List Operation) : sinceClear (operations ++ [.clear]) = [] := by
  simp [sinceClear, Operation.isClear]

theorem run_elides (operations : List Operation) : Elides {} (run operations) (verbatim operations) := by
  induction operations using List.reverseRecOn with
  | nil => exact .refl {}
  | append_singleton operations operation ih =>
    have hrun : run (operations ++ [operation]) = (run operations).perform operation := by simp [run]
    rw [hrun, verbatim]
    cases h : operation.isClear with
    | false =>
      rw [sinceClear_append operations h, List.flatMap_append, List.flatMap_singleton]
      exact ih.trans (perform_elides _ h)
    | true =>
      -- The state is forgotten together with the commands, so nothing later is taken for needless.
      rw [Operation.isClear_eq_true.mp h, sinceClear_clear]
      exact .refl {}

/-- A text is drawn in the font and the color of its format. -/
theorem Operation.drawn_formatted {operation : Operation} {text : String} {position : Point} {size : Size}
    {font : Option String} {fill : Option Color} (h : .text text position size font fill ∈ operation.drawn) :
    (∃ name, font = some name) ∧ ∃ color, fill = some color := by
  cases operation with
  | draw compiled offset =>
    obtain ⟨e, _, he⟩ := List.mem_map.mp h
    rw [Element.drawn] at he
    split at he
    · cases he
      exact ⟨⟨_, rfl⟩, _, rfl⟩
    · cases he
  | drawText position size text format =>
    cases List.mem_singleton.mp h
    exact ⟨⟨_, rfl⟩, _, rfl⟩
  | drawImage position size image tint => cases List.mem_singleton.mp h
  | setFont name => cases h
  | setFill color => cases h
  | clear => cases h

theorem run_commands (operations : List Operation) :
    (run operations).commands = Graphics.elide {} (verbatim operations) :=
  (run_elides operations).commands

theorem run_replay (operations : List Operation) :
    Graphics.replay {} (run operations).commands = (sinceClear operations).flatMap Operation.drawn := by
  rw [run_commands, Graphics.replay_elide]
  exact Graphics.replay_flatMap _ Operation.replay_commands _

theorem font_and_fill_precede {operations : List Operation} {before rest : List Command} {text : String}
    {position : Point} {size : Size}
    (h : (run operations).commands = before ++ .drawString text position size :: rest) :
    (∃ name, .setFont name ∈ before) ∧ ∃ color, .setFill color ∈ before := by
  let g := Graphics.afterAll {} before
  have hm : .text text position size g.font g.fill ∈ (sinceClear operations).flatMap Operation.drawn := by
    rw [← run_replay, h, Graphics.replay_append]
    simp [Graphics.replay, Graphics.drawn, g]
  obtain ⟨operation, _, hm⟩ := List.mem_flatMap.mp hm
  obtain ⟨⟨name, hname⟩, color, hcolor⟩ := Operation.drawn_formatted hm
  constructor
  · rcases Graphics.font_afterAll _ hname with hn | hn
    · cases hn
    · exact ⟨name, hn⟩
  · rcases Graphics.fill_afterAll _ hcolor with hc | hc
    · cases hc
    · exact ⟨color, hc⟩

/-- Whoever replays what a canvas recorded since it was cleared draws each element and each direct request
once, in order, and as from a record that leaves nothing out. No text lacks a font or a color, and none is
set again while in force. -/
theorem run_replays_drawn (operations : List Operation) :
    Graphics.replay {} (run operations).commands = Graphics.replay {} (verbatim operations) ∧
    Graphics.replay {} (run operations).commands = (sinceClear operations).flatMap Operation.drawn ∧
    (∀ before text position size rest,
      (run operations).commands = before ++ .drawString text position size :: rest →
      (∃ name, .setFont name ∈ before) ∧ ∃ color, .setFill color ∈ before) ∧
    (∀ before name rest, (run operations).commands = before ++ .setFont name :: rest →
      (Graphics.afterAll {} before).font ≠ some name) ∧
    ∀ before color rest, (run operations).commands = before ++ .setFill color :: rest →
      (Graphics.afterAll {} before).fill ≠ some color := by
  refine ⟨?_, run_replay operations, fun _ _ _ _ _ => font_and_fill_precede, ?_, ?_⟩
  · rw [run_commands, Graphics.replay_elide]
  · intro before name rest h hname
    rw [run_commands] at h
    refine Graphics.elide_keeps _ h ⟨rfl, ?_⟩
    simp [Graphics.after, ← hname]
  · intro before color rest h hcolor
    rw [run_commands] at h
    refine Graphics.elide_keeps _ h ⟨rfl, ?_⟩
    simp [Graphics.after, ← hcolor]

end Canvas

end Galley
