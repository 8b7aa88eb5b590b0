import Galley.Proofs.Tokens

/-! Reading step by step: a token, and what the builder makes of it. -/

namespace Galley.Markup

structure Reading where
  place : Place
  cursor : Cursor
  builder : Builder

namespace Reading

def step (r : Reading) : Except Fault (Option Reading) := do
  match ← next r.place r.cursor with
  | none => return none
  | some (token, place, cursor) => return some ⟨place, cursor, ← r.builder.accept token⟩

variable {r s t : Reading}

theorem step_eq_some : r.step = .ok (some s) ↔ ∃ token,
    next r.place r.cursor = .ok (some (token, s.place, s.cursor)) ∧ r.builder.accept token = .ok s.builder := by
  constructor
  · intro h
    obtain ⟨found, hfound, h⟩ := bind_eq_ok h
    rcases found with _ | ⟨token, place, cursor⟩
    · cases h
    · obtain ⟨builder, hbuilder, h⟩ := bind_eq_ok h
      cases h
      exact ⟨token, hfound, hbuilder⟩
  · rintro ⟨token, hfound, hbuilder⟩
    simp only [step, hfound, hbuilder, bind, Except.bind]
    rfl

theorem read_of_step (h : r.step = .ok (some s)) (fuel : Nat) :
    Builder.read (fuel + 1) r.place r.cursor r.builder = Builder.read fuel s.place s.cursor s.builder := by
  obtain ⟨token, hfound, hbuilder⟩ := step_eq_some.mp h
  simp only [Builder.read, hfound, hbuilder, bind, Except.bind]

theorem step_of_read {fuel : Nat} {b : Builder}
    (h : Builder.read (fuel + 1) r.place r.cursor r.builder = .ok b) :
    r.builder = b ∨ ∃ s, r.step = .ok (some s) ∧ Builder.read fuel s.place s.cursor s.builder = .ok b := by
  obtain ⟨found, hfound, h⟩ := bind_eq_ok h
  rcases found with _ | ⟨token, place, cursor⟩
  · cases h
    exact .inl rfl
  · obtain ⟨builder, hbuilder, h⟩ := bind_eq_ok h
    exact .inr ⟨⟨place, cursor, builder⟩, step_eq_some.mpr ⟨token, hfound, hbuilder⟩, h⟩

end Reading

/-- Before each token the place says how many elements are open and whether a start tag is being read. -/
inductive Fits : Place → Builder → Prop where
  | tag (t : OpenTag) (stack : List OpenElement) : Fits (.tag stack.length) { tag := some t, stack }
  | content (e : OpenElement) (outer : List OpenElement) :
      Fits (.content outer.length) { stack := e :: outer }
  | afterRoot (root : Node) : Fits .afterRoot { root := some root }

theorem Fits.root_none {place : Place} {b : Builder} (h : Fits place b) (hopen : b.stack ≠ []) :
    b.root = none := by
  cases h with
  | tag t stack => rfl
  | content e outer => rfl
  | afterRoot root => exact absurd rfl hopen

theorem Fits.ne_afterRoot {place : Place} {b : Builder} (h : Fits place b) (hopen : b.stack ≠ []) :
    place ≠ .afterRoot := by
  cases h with
  | tag t stack => simp
  | content e outer => simp
  | afterRoot root => exact absurd rfl hopen

/-- Where a token leads from a place, and what becomes of a builder that fits there. -/
inductive Turns : Place → Builder → Token → Place → Builder → Prop where
  | attr {t t' : OpenTag} {stack : List OpenElement} {name : QName} {raw value : List Char}
      {pos valuePos : Position} (hvalue : expandValue valuePos raw = .ok value)
      (hadd : t.add name (String.ofList value) pos = .ok t') :
      Turns (.tag stack.length) { tag := some t, stack } (.attr name raw pos valuePos)
        (.tag stack.length) { tag := some t', stack }
  | emptyTag {t : OpenTag} {e : OpenElement} {stack : List OpenElement}
      (hfinish : t.finish ((stack.head?.map (·.bindings)).getD []) = .ok e) :
      Turns (.tag stack.length) { tag := some t, stack } (.tagEnd true)
        (.closed stack.length) (({ stack } : Builder).place e.close)
  | startTag {t : OpenTag} {e : OpenElement} {stack : List OpenElement}
      (hfinish : t.finish ((stack.head?.map (·.bindings)).getD []) = .ok e) :
      Turns (.tag stack.length) { tag := some t, stack } (.tagEnd false)
        (.content stack.length) { stack := e :: stack }
  | tagName {name : QName} {pos : Position} {e : OpenElement} {outer : List OpenElement}
      (hname : name.qualifier ≠ "xmlns") :
      Turns (.content outer.length) { stack := e :: outer } (.tagName name pos)
        (.tag (e :: outer).length) { tag := some { name, pos }, stack := e :: outer }
  | closeTag {name : QName} {pos : Position} {e : OpenElement} {outer : List OpenElement}
      (hname : e.name = name) :
      Turns (.content outer.length) { stack := e :: outer } (.closeTag name pos)
        (.closed outer.length) (({ stack := outer } : Builder).place e.close)
  | text {raw content : List Char} {pos : Position} {e : OpenElement} {outer : List OpenElement}
      (hcontent : expandText pos raw = .ok content) :
      Turns (.content outer.length) { stack := e :: outer } (.text raw pos)
        (.content outer.length) { stack := e.add (.text (String.ofList content)) :: outer }
  | verbatim {content : List Char} {e : OpenElement} {outer : List OpenElement} :
      Turns (.content outer.length) { stack := e :: outer } (.verbatim content)
        (.content outer.length) { stack := e.add (.text (String.ofList content)) :: outer }
  | aside {e : OpenElement} {outer : List OpenElement} :
      Turns (.content outer.length) { stack := e :: outer } .aside
        (.content outer.length) { stack := e.add .aside :: outer }
  | asideAfterRoot {root : Node} :
      Turns .afterRoot { root := some root } .aside .afterRoot { root := some root }

section turns

variable {place place' : Place} {b b' : Builder} {token : Token}

theorem accept_turns (h : Fits place b) (hmoves : Moves place token place') (hb : b.accept token = .ok b') :
    Turns place b token place' b' := by
  cases h with
  | tag t stack =>
    cases hmoves with
    | attr name raw pos valuePos =>
      obtain ⟨value, hvalue, hb⟩ := bind_eq_ok hb
      obtain ⟨t', hadd, hb⟩ := bind_eq_ok hb
      cases hb
      exact .attr hvalue hadd
    | emptyTag =>
      obtain ⟨e, hfinish, hb⟩ := bind_eq_ok hb
      cases hb
      exact .emptyTag hfinish
    | startTag =>
      obtain ⟨e, hfinish, hb⟩ := bind_eq_ok hb
      cases hb
      exact .startTag hfinish
  | content e outer =>
    cases hmoves with
    | tagName name pos =>
      rw [Builder.accept] at hb
      split_ifs at hb with hname
      cases hb
      exact .tagName hname
    | closeTag name pos =>
      simp only [Builder.accept] at hb
      split_ifs at hb with hname
      cases hb
      exact .closeTag hname
    | text raw pos =>
      obtain ⟨content, hcontent, hb⟩ := bind_eq_ok hb
      cases hb
      exact .text hcontent
    | verbatim content =>
      cases hb
      exact .verbatim
    | aside =>
      cases hb
      exact .aside
  | afterRoot root =>
    cases hmoves with
    | asideAfterRoot =>
      cases hb
      exact .asideAfterRoot

theorem place_fits (e : OpenElement) (stack : List OpenElement) :
    Fits (.closed stack.length) (({ stack } : Builder).place e.close) := by
  cases stack with
  | nil => exact .afterRoot e.close
  | cons f outer => exact .content (f.add e.close) outer

theorem Turns.fits (h : Turns place b token place' b') : Fits place' b' := by
  cases h with
  | attr => exact .tag _ _
  | @emptyTag t e stack => exact place_fits e stack
  | startTag => exact .content _ _
  | tagName => exact .tag _ _
  | @closeTag name pos e outer => exact place_fits e outer
  | text => exact .content _ _
  | verbatim => exact .content _ _
  | aside => exact .content _ _
  | asideAfterRoot => exact .afterRoot _

/-- The reading leaves the outermost element only behind it. -/
theorem Turns.afterRoot (h : Turns place b token place' b') (hopen : b.stack ≠ []) (hclosed : b'.stack = []) :
    place' = .afterRoot := by
  cases h with
  | attr => exact absurd hclosed hopen
  | @emptyTag t e stack =>
    cases stack with
    | nil => rfl
    | cons f outer => cases hclosed
  | @closeTag name pos e outer =>
    cases outer with
    | nil => rfl
    | cons f outer => cases hclosed
  | asideAfterRoot => rfl
  | _ => cases hclosed

end turns

/-- An open element without what has been found in it. -/
def OpenElement.bare (e : OpenElement) : OpenElement := { e with children := [] }

theorem OpenElement.bare_add (e : OpenElement) (node : Node) : (e.add node).bare = e.bare := by
  unfold OpenElement.add
  split <;> rfl

theorem place_bare (b : Builder) (node : Node) :
    (b.place node).stack.map OpenElement.bare = b.stack.map OpenElement.bare := by
  unfold Builder.place
  split
  case h_1 e outer _ hstack => simp [hstack, OpenElement.bare_add]
  all_goals simp_all

/-- A token opens one element or closes one, or it leaves the open elements as they are. -/
theorem Turns.bare {place place' : Place} {b b' : Builder} {token : Token}
    (h : Turns place b token place' b') :
    b.stack.map OpenElement.bare <:+ b'.stack.map OpenElement.bare ∨
      b'.stack.map OpenElement.bare <:+ b.stack.map OpenElement.bare := by
  cases h with
  | emptyTag => exact .inl (by rw [place_bare])
  | closeTag =>
    right
    rw [place_bare]
    exact List.suffix_cons _ _
  | startTag => exact .inl (List.suffix_cons _ _)
  | text => exact .inl (by simp [OpenElement.bare_add])
  | verbatim => exact .inl (by simp [OpenElement.bare_add])
  | aside => exact .inl (by simp [OpenElement.bare_add])
  | _ => exact .inl List.suffix_rfl

/-- The outermost element stays what it is while it is open. -/
theorem Turns.outermost {place place' : Place} {b b' : Builder} {token : Token}
    (h : Turns place b token place' b') (hopen : b.stack ≠ []) (hopen' : b'.stack ≠ []) :
    (b'.stack.map OpenElement.bare).getLast? = (b.stack.map OpenElement.bare).getLast? := by
  have hne : b.stack.map OpenElement.bare ≠ [] := by simpa using hopen
  have hne' : b'.stack.map OpenElement.bare ≠ [] := by simpa using hopen'
  rcases h.bare with ⟨inner, happend⟩ | ⟨inner, happend⟩
  · rw [← happend, List.getLast?_append_of_ne_nil inner hne]
  · rw [← happend, List.getLast?_append_of_ne_nil inner hne']

namespace Reading

variable {r s t : Reading}

theorem step_turns (h : Fits r.place r.builder) (hs : r.step = .ok (some s)) : ∃ token,
    next r.place r.cursor = .ok (some (token, s.place, s.cursor)) ∧
      Turns r.place r.builder token s.place s.builder := by
  obtain ⟨token, hfound, hbuilder⟩ := step_eq_some.mp hs
  exact ⟨token, hfound, accept_turns h (next_moves hfound) hbuilder⟩

/-- At least one element is open inside the elements `outer`. -/
def Over (outer : List OpenElement) (r : Reading) : Prop := ∃ e upper, r.builder.stack = e :: upper ++ outer

theorem Over.stack_ne_nil {outer : List OpenElement} (h : r.Over outer) : r.builder.stack ≠ [] := by
  obtain ⟨e, upper, hstack⟩ := h
  rw [hstack]
  exact List.cons_ne_nil e (upper ++ outer)

theorem over_nil (h : r.builder.stack ≠ []) : r.Over [] := by
  obtain ⟨e, upper, hstack⟩ := List.exists_cons_of_ne_nil h
  exact ⟨e, upper, by rw [hstack, List.append_nil]⟩

/-- Steps that read the given characters, before each of which and behind the last an element is open inside the
elements `outer`, in which nothing changes. -/
inductive Reads (outer : List OpenElement) : List Char → Reading → Reading → Prop where
  | stop {r : Reading} (h : r.Over outer) : Reads outer [] r r
  | step {r s t : Reading} {taken cs : List Char} (h : r.Over outer) (hs : r.step = .ok (some s))
      (htaken : taken ≠ []) (hrest : r.cursor.rest = taken ++ s.cursor.rest) (hreads : Reads outer cs s t) :
      Reads outer (taken ++ cs) r t

namespace Reads

variable {outer : List OpenElement} {cs ds : List Char}

theorem trans (h : Reads outer cs r s) (h' : Reads outer ds s t) : Reads outer (cs ++ ds) r t := by
  induction h with
  | stop _ => exact h'
  | step h hs htaken hrest _ ih =>
    rw [List.append_assoc]
    exact .step h hs htaken hrest (ih h')

theorem rest (h : Reads outer cs r t) : r.cursor.rest = cs ++ t.cursor.rest := by
  induction h with
  | stop _ => rfl
  | step _ _ _ hrest _ ih => rw [hrest, ih, List.append_assoc]

theorem start_over (h : Reads outer cs r t) : r.Over outer := by
  cases h with
  | stop h => exact h
  | step h _ _ _ _ => exact h

theorem outermost (h : Reads outer cs r t) (hfits : Fits r.place r.builder) :
    (t.builder.stack.map OpenElement.bare).getLast? = (r.builder.stack.map OpenElement.bare).getLast? := by
  induction h with
  | stop _ => rfl
  | step hover hs _ _ hreads ih =>
    obtain ⟨token, -, hturns⟩ := step_turns hfits hs
    exact (ih hturns.fits).trans (hturns.outermost hover.stack_ne_nil hreads.start_over.stack_ne_nil)

theorem under {e : OpenElement} (h : Reads (e :: outer) cs r t) : Reads outer cs r t := by
  have hover : ∀ r : Reading, r.Over (e :: outer) → r.Over outer := by
    rintro r ⟨f, upper, hstack⟩
    exact ⟨f, upper ++ [e], by simp [hstack]⟩
  induction h with
  | stop h => exact .stop (hover _ h)
  | step h hs htaken hrest _ ih => exact .step (hover _ h) hs htaken hrest ih

/-- The reader takes the same steps. As each takes a character, so many units of fuel are enough. -/
theorem read (h : Reads outer cs r t) : ∃ n ≤ cs.length, ∀ fuel,
    Builder.read (n + fuel) r.place r.cursor r.builder = Builder.read fuel t.place t.cursor t.builder := by
  induction h with
  | stop _ => exact ⟨0, Nat.zero_le _, fun fuel => by rw [Nat.zero_add]⟩
  | step _ hs htaken _ _ ih =>
    obtain ⟨n, hn, hread⟩ := ih
    have hpos := List.length_pos_iff.mpr htaken
    refine ⟨n + 1, ?_, fun fuel => ?_⟩
    · rw [List.length_append]
      omega
    · rw [Nat.add_right_comm, read_of_step hs, hread]

end Reads

end Reading

end Galley.Markup
