import Galley.Proofs.Enclosure
import Galley.Proofs.Simulation

/-! A text that is the content of one element is read alike inside others. Neither the elements around it nor
the places of its tokens show in the nodes that it leaves. -/

namespace Galley.Markup

section references

variable {c c' d : Cursor}

theorem reference_alike (h : d.rest = c.rest) {x : Char} (hc : reference c = .ok (x, c')) :
    ∃ d', reference d = .ok (x, d') ∧ d'.rest = c'.rest := by
  obtain ⟨pos, rest⟩ := c
  obtain ⟨pos', _⟩ := d
  cases h
  simp only [reference, Cursor.skip, Cursor.run, Cursor.name] at hc ⊢
  split at hc
  · split at hc
    · cases hc
      simp_all
    · cases hc
  · split at hc
    · cases hc
      simp_all
    · cases hc
  · cases hdrop : rest.drop 1 with
    | nil => simp [hdrop] at hc
    | cons y ys =>
      by_cases hy : isNameStart y = true
      · simp only [hdrop, hy, if_true] at hc ⊢
        split at hc
        · cases hc
        · split at hc
          · cases hc
            simp_all
          · cases hc
      · simp [hdrop, hy] at hc

theorem expandFrom_alike (spacing : Char → Char) {fuel : Nat} {done value : List Char} (h : d.rest = c.rest)
    (hc : expandFrom spacing fuel c done = .ok value) : expandFrom spacing fuel d done = .ok value := by
  induction fuel generalizing c d done with
  | zero => exact hc
  | succ fuel ih =>
    have hskip : (d.skip 1).rest = (c.skip 1).rest := by rw [Cursor.skip, Cursor.skip, h]
    simp only [expandFrom] at hc ⊢
    rw [h]
    split at hc
    · exact hc
    · obtain ⟨⟨x, c'⟩, href, hc⟩ := bind_eq_ok hc
      obtain ⟨d', hd, hrest⟩ := reference_alike h href
      rw [hd]
      exact ih hrest hc
    · exact ih hskip hc
    · exact ih hskip hc

theorem expandText_alike {raw value : List Char} {pos : Position} (h : expandText pos raw = .ok value)
    (pos' : Position) : expandText pos' raw = .ok value :=
  expandFrom_alike (c := ⟨pos, raw⟩) _ rfl h

theorem expandValue_alike {raw value : List Char} {pos : Position} (h : expandValue pos raw = .ok value)
    (pos' : Position) : expandValue pos' raw = .ok value :=
  expandFrom_alike (c := ⟨pos, raw⟩) _ rfl h

end references

def Attribute.bare (a : Attribute) : Attribute := { a with pos := {} }

/-- A start tag without the places of its parts. -/
def OpenTag.bare (t : OpenTag) : OpenTag :=
  { t with pos := {}, attributes := t.attributes.map Attribute.bare }

/-- An open element with more bindings in scope, behind those it had. -/
def OpenElement.extend (more : Bindings) (e : OpenElement) : OpenElement :=
  { e with bindings := e.bindings ++ more }

section tags

variable {t t' u : OpenTag} {scope more : Bindings}

theorem add_alike (h : u.bare = t.bare) {name : QName} {value : String} {pos : Position}
    (ht : t.add name value pos = .ok t') (pos' : Position) :
    ∃ u', u.add name value pos' = .ok u' ∧ u'.bare = t'.bare := by
  obtain ⟨_, _, _, attributes⟩ := t
  obtain ⟨tagName, _, bindings, attributes'⟩ := u
  simp only [OpenTag.bare, OpenTag.mk.injEq] at h
  obtain ⟨rfl, -, rfl, hattributes⟩ := h
  by_cases hprefix : name.qualifier = "xmlns"
  · rw [OpenTag.add, if_pos hprefix] at ht
    obtain ⟨hreserved, ht⟩ := guard_eq_ok ht
    obtain ⟨hwrong, ht⟩ := guard_eq_ok ht
    obtain ⟨hxml, ht⟩ := guard_eq_ok ht
    obtain ⟨hnew, ht⟩ := guard_eq_ok ht
    cases ht
    rw [OpenTag.add, if_pos hprefix, if_neg hreserved, if_neg hwrong, if_neg hxml, if_neg hnew]
    refine ⟨_, rfl, ?_⟩
    split <;> simp [OpenTag.bare, hattributes]
  by_cases hdefault : name.name = "xmlns"
  · rw [OpenTag.add, if_neg hprefix, if_pos hdefault] at ht
    obtain ⟨hxml, ht⟩ := guard_eq_ok ht
    obtain ⟨hreserved, ht⟩ := guard_eq_ok ht
    cases ht
    rw [OpenTag.add, if_neg hprefix, if_pos hdefault, if_neg hxml, if_neg hreserved]
    exact ⟨_, rfl, by simp [OpenTag.bare, hattributes]⟩
  · rw [OpenTag.add, if_neg hprefix, if_neg hdefault] at ht
    cases ht
    rw [OpenTag.add, if_neg hprefix, if_neg hdefault]
    exact ⟨_, rfl, by simp [OpenTag.bare, Attribute.bare, hattributes]⟩

theorem lookup_append {name uri : String} (h : scope.lookup name = some uri) :
    (scope ++ more).lookup name = some uri := by
  rw [List.lookup_append, h]
  rfl

theorem resolve_alike {a b : Attribute} (h : b.bare = a.bare) {uri : Option String}
    (ha : scope.resolve? a = .ok uri) : (scope ++ more).resolve? b = .ok uri := by
  obtain ⟨name, value, pos⟩ := a
  obtain ⟨_, _, pos'⟩ := b
  cases h
  simp only [Bindings.resolve?] at ha ⊢
  by_cases hempty : name.qualifier.isEmpty = true
  · rwa [if_pos hempty] at ha ⊢
  rw [if_neg hempty] at ha ⊢
  by_cases hxml : name.qualifier = "xml"
  · rwa [if_pos hxml] at ha ⊢
  rw [if_neg hxml] at ha ⊢
  cases hlookup : scope.lookup name.qualifier with
  | none =>
    rw [hlookup] at ha
    cases ha
  | some found =>
    rw [hlookup] at ha
    rw [lookup_append hlookup]
    exact ha

theorem expandedNames_alike {as bs : List Attribute} (h : bs.map Attribute.bare = as.map Attribute.bare)
    {seen names : List (Option String × String)} (ha : scope.expandedNames seen as = .ok names) :
    Bindings.expandedNames (scope ++ more) seen bs = .ok names := by
  induction as generalizing bs seen with
  | nil =>
    obtain rfl : bs = [] := by simpa using h
    exact ha
  | cons a as ih =>
    cases bs with
    | nil => cases h
    | cons b bs =>
      obtain ⟨hb, hbs⟩ := List.cons.inj h
      obtain ⟨uri, huri, ha⟩ := bind_eq_ok ha
      obtain ⟨hnew, ha⟩ := guard_eq_ok ha
      have hname : b.name = a.name := (Attribute.mk.inj hb).1
      simp only [Bindings.expandedNames, resolve_alike hb huri, bind, Except.bind, hname, if_neg hnew]
      exact ih hbs ha

/-- The attributes that are kept, of names without a qualifier. -/
def plain (attributes : List Attribute) : List (String × String) :=
  (attributes.filter fun a => a.name.qualifier.isEmpty).map fun a => (a.name.name, a.value)

theorem plain_bare (attributes : List Attribute) :
    plain (attributes.map Attribute.bare) = plain attributes := by
  rw [plain, List.filter_map, List.map_map]
  rfl

/-- More bindings in scope change nothing of a tag whose qualifiers are all known. -/
theorem finish_alike (h : u.bare = t.bare) {e : OpenElement} (ht : t.finish scope = .ok e) :
    u.finish (scope ++ more) = .ok (e.extend more) := by
  obtain ⟨_, pos, _, attributes⟩ := t
  obtain ⟨name, pos', bindings, attributes'⟩ := u
  simp only [OpenTag.bare, OpenTag.mk.injEq] at h
  obtain ⟨rfl, -, rfl, hattributes⟩ := h
  obtain ⟨names, hnames, ht⟩ := bind_eq_ok ht
  dsimp only at hnames ht
  have hreverse : attributes'.reverse.map Attribute.bare = attributes.reverse.map Attribute.bare := by
    rw [List.map_reverse, List.map_reverse, hattributes]
  have hnames' : Bindings.expandedNames (bindings ++ scope ++ more) [] attributes'.reverse = .ok names :=
    expandedNames_alike hreverse hnames
  have hplain : plain attributes'.reverse = plain attributes.reverse := by
    rw [← plain_bare, hreverse, plain_bare]
  by_cases hknown : (name.qualifier.isEmpty || ((bindings ++ scope).lookup name.qualifier).isSome) = true
  · rw [if_pos hknown] at ht
    cases ht
    have hknown' :
        (name.qualifier.isEmpty || ((bindings ++ scope ++ more).lookup name.qualifier).isSome) = true := by
      rw [Bool.or_eq_true, Option.isSome_iff_exists] at hknown ⊢
      exact hknown.imp_right (Exists.imp fun _ => lookup_append)
    simp only [OpenTag.finish, ← List.append_assoc, hnames', hknown', bind, Except.bind, if_true]
    change Except.ok (OpenElement.mk name (plain attributes'.reverse) (bindings ++ scope ++ more) []) = _
    rw [hplain]
    rfl
  · rw [if_neg hknown] at ht
    cases ht

end tags

/-- A builder that has the elements `outer` open around those of another, all with more bindings in scope. -/
structure Grafted (more : Bindings) (outer : List OpenElement) (b d : Builder) : Prop where
  tag : d.tag.map OpenTag.bare = b.tag.map OpenTag.bare
  stack : d.stack = b.stack.map (OpenElement.extend more) ++ outer
  root : d.root = b.root

section builders

variable {more : Bindings} {outer : List OpenElement} {b b' d : Builder} {place place' : Place}
  {token token' : Token}

theorem extend_add (e : OpenElement) (node : Node) : (e.extend more).add node = (e.add node).extend more := by
  obtain ⟨name, attributes, bindings, children⟩ := e
  cases node <;> cases children with
  | nil => rfl
  | cons child children => cases child <;> rfl

theorem Grafted.add (h : Grafted more outer b d) (hopen : b.stack ≠ []) (node : Node) :
    Grafted more outer (b.place node) (d.place node) := by
  obtain ⟨tag, stack, root⟩ := b
  obtain ⟨tag', stack', root'⟩ := d
  obtain ⟨htag, hstack, hroot⟩ := h
  cases stack with
  | nil => exact absurd rfl hopen
  | cons e stack =>
    cases hstack
    exact ⟨htag, by simp [Builder.place, extend_add], hroot⟩

/-- The bindings in scope for a tag inside the innermost open element. -/
theorem Grafted.scope (h : Grafted more outer b d) (hopen : b.stack ≠ []) :
    (d.stack.head?.map (·.bindings)).getD [] = (b.stack.head?.map (·.bindings)).getD [] ++ more := by
  obtain ⟨e, stack, hb⟩ := List.exists_cons_of_ne_nil hopen
  rw [h.stack, hb]
  rfl

/-- A builder with other elements around takes a token as it does by itself, unless the token closes its
outermost element. -/
theorem accept_alike (h : Grafted more outer b d) (hturns : Turns place b token place' b')
    (hopen : b.stack ≠ []) (hopen' : b'.stack ≠ []) (htoken : token'.bare = token.bare) :
    ∃ d', d.accept token' = .ok d' ∧ Grafted more outer b' d' := by
  have hscope := h.scope hopen
  obtain ⟨tag', stack', root'⟩ := d
  cases hturns with
  | @attr t t' stack name raw value pos valuePos hvalue hadd =>
    cases token' with
    | attr name' raw' pos' valuePos' =>
      cases htoken
      cases tag' with
      | none => cases h.tag
      | some u =>
        obtain ⟨u', hadd', hbare⟩ := add_alike (Option.some.inj h.tag) hadd pos'
        refine ⟨{ tag := some u', stack := stack', root := root' }, ?_, congrArg some hbare, h.stack, h.root⟩
        simp only [Builder.accept, expandValue_alike hvalue valuePos', hadd', bind, Except.bind]
        rfl
    | _ => cases htoken
  | @emptyTag t e stack hfinish =>
    cases token' with
    | tagEnd isEmpty =>
      cases htoken
      cases tag' with
      | none => cases h.tag
      | some u =>
        have hfinish' : u.finish (_ ++ more) = .ok (e.extend more) :=
          finish_alike (Option.some.inj h.tag) hfinish
        have hfinished : Grafted more outer { stack } { stack := stack', root := root' } :=
          ⟨rfl, h.stack, h.root⟩
        refine ⟨_, ?_, hfinished.add hopen e.close⟩
        simp only [Builder.accept, hscope, hfinish', bind, Except.bind]
        rfl
    | _ => cases htoken
  | @startTag t e stack hfinish =>
    cases token' with
    | tagEnd isEmpty =>
      cases htoken
      cases tag' with
      | none => cases h.tag
      | some u =>
        have hfinish' : u.finish (_ ++ more) = .ok (e.extend more) :=
          finish_alike (Option.some.inj h.tag) hfinish
        have hstack := congrArg (e.extend more :: ·) h.stack
        refine ⟨{ stack := e.extend more :: stack', root := root' }, ?_, rfl, hstack, h.root⟩
        simp only [Builder.accept, hscope, hfinish', bind, Except.bind]
        rfl
    | _ => cases htoken
  | @tagName name pos e stack hname =>
    cases token' with
    | tagName name' pos' =>
      cases htoken
      exact ⟨{ tag := some { name, pos := pos' }, stack := stack', root := root' }, if_neg hname, rfl, h.stack,
        h.root⟩
    | _ => cases htoken
  | @closeTag name pos e stack hname =>
    cases token' with
    | closeTag name' pos' =>
      cases htoken
      have hstack : stack ≠ [] := by
        rintro rfl
        exact hopen' rfl
      have hclosed : Grafted more outer { stack }
          { tag := tag', stack := stack.map (OpenElement.extend more) ++ outer, root := root' } :=
        ⟨h.tag, rfl, h.root⟩
      cases h.stack
      exact ⟨_, if_pos hname, hclosed.add hstack e.close⟩
    | _ => cases htoken
  | @text raw content pos e stack hcontent =>
    cases token' with
    | text raw' pos' =>
      cases htoken
      refine ⟨_, ?_, h.add hopen (.text (String.ofList content))⟩
      simp only [Builder.accept, expandText_alike hcontent pos', bind, Except.bind]
      rfl
    | _ => cases htoken
  | @verbatim content e stack =>
    cases token' with
    | verbatim content' =>
      cases htoken
      exact ⟨_, rfl, h.add hopen (.text (String.ofList content))⟩
    | _ => cases htoken
  | @aside e stack =>
    cases token' with
    | aside => exact ⟨_, rfl, h.add hopen .aside⟩
    | _ => cases htoken
  | asideAfterRoot => exact absurd rfl hopen

end builders

/-- Two readings before one text: one of it by itself, and one `n` elements further in. -/
structure Graft (x : List Char) (more : Bindings) (outer : List OpenElement) (n : Nat) (m : List Char)
    (r s : Reading) : Prop where
  along : Alongside x m r.cursor s.cursor
  place : s.place = r.place.under n
  builder : Grafted more outer r.builder s.builder

section readings

open Reading

variable {x m : List Char} {more : Bindings} {outer : List OpenElement} {n : Nat} {r r' s t : Reading}

theorem step_alike (h : Graft x more outer n m r s) (hfits : Fits r.place r.builder) (hm : m ≠ [])
    (hopen : r.builder.stack ≠ []) (hr : r.step = .ok (some r')) (hopen' : r'.builder.stack ≠ []) :
    ∃ s' m', s.step = .ok (some s') ∧ Graft x more outer n m' r' s' := by
  obtain ⟨token, hnext, hturns⟩ := step_turns hfits hr
  obtain ⟨_, token', _, _, c', m', hsome, hnext', hbare, halong, -⟩ :=
    next_alongside h.along hm (hfits.ne_afterRoot hopen) n _ hnext
  cases hsome
  obtain ⟨d', haccept, hgrafted⟩ := accept_alike h.builder hturns hopen hopen' hbare
  refine ⟨⟨r'.place.under n, c', d'⟩, m', ?_, ⟨halong, rfl, hgrafted⟩⟩
  rw [← h.place] at hnext'
  exact step_eq_some.mpr ⟨token', hnext', haccept⟩

theorem Graft.over (h : Graft x more outer n m r s) (hopen : r.builder.stack ≠ []) : s.Over outer := by
  obtain ⟨e, stack, hstack⟩ := List.exists_cons_of_ne_nil hopen
  refine ⟨e.extend more, stack.map (OpenElement.extend more), ?_⟩
  rw [h.builder.stack, hstack]
  rfl

/-- A text up to the end tag is read inside other elements as it is by itself. -/
theorem reads_alike {cs : List Char} (hreads : Reads [] cs r t) (hend : t.cursor.rest = endTag)
    (hfits : Fits r.place r.builder) (h : Graft x more outer n cs r s) :
    ∃ u, Reads outer cs s u ∧ Graft x more outer n [] t u := by
  induction hreads generalizing s with
  | stop hover => exact ⟨s, .stop (h.over hover.stack_ne_nil), h⟩
  | @step r r' t taken cs hover hr htaken hrest hreads ih =>
    have hm : taken ++ cs ≠ [] := List.append_ne_nil_of_left_ne_nil htaken cs
    obtain ⟨token, -, hturns⟩ := step_turns hfits hr
    obtain ⟨s', m', hs, h'⟩ := step_alike h hfits hm hover.stack_ne_nil hr hreads.start_over.stack_ne_nil
    have hcs : m' = cs := by
      have hleft := h'.along.left
      rw [hreads.rest, hend] at hleft
      exact (List.append_cancel_right hleft).symm
    subst hcs
    obtain ⟨u, hreads', hlast⟩ := ih hend hturns.fits h'
    refine ⟨u, .step (h.over hover.stack_ne_nil) hs htaken ?_ hreads', hlast⟩
    rw [h.along.right, h'.along.right, List.append_assoc]

theorem reads_startTag {c : Cursor} {rest : List Char} (h : c.rest = startTag ++ rest) (depth : Nat)
    (e : OpenElement) (outer : List OpenElement) : ∃ pos,
    Reads outer startTag ⟨.content depth, c, { stack := e :: outer }⟩
      ⟨.content (depth + 1), ⟨pos, rest⟩, { stack := rootElement e.bindings [] :: e :: outer }⟩ := by
  let tagged : Reading :=
    ⟨.tag (depth + 1), ⟨(c.skip 1).pos.afterAll fragmentRoot.toList, '>' :: rest⟩,
      { tag := some { name := rootName, pos := (c.skip 1).pos }, stack := e :: outer }⟩
  have htag : step ⟨.content depth, c, { stack := e :: outer }⟩ = .ok (some tagged) :=
    step_eq_some.mpr ⟨.tagName rootName (c.skip 1).pos, nextInContent_startTag h depth, rfl⟩
  obtain ⟨hnext, hrest⟩ := nextInTag_end (c := tagged.cursor) rfl (depth + 1)
  have henter : tagged.step = .ok (some ⟨.content (depth + 1), tagged.cursor.spaces.skip 1,
      { stack := rootElement e.bindings [] :: e :: outer }⟩) := step_eq_some.mpr ⟨.tagEnd false, hnext, rfl⟩
  have hsplit : startTag = '<' :: fragmentRoot.toList ++ (['>'] ++ []) := by decide
  rw [startTag_eq] at h
  rw [hsplit]
  refine ⟨(tagged.cursor.spaces.skip 1).pos, .step ⟨e, [], rfl⟩ htag (List.cons_ne_nil _ _) h ?_⟩
  refine .step ⟨e, [], rfl⟩ henter (List.cons_ne_nil _ _) (congrArg ('>' :: ·) hrest.symm) ?_
  rw [← hrest]
  exact .stop ⟨_, [e], rfl⟩

theorem reads_endTag {c : Cursor} {rest : List Char} (h : c.rest = endTag ++ rest) (depth : Nat)
    (scope : Bindings) (nodes : List Node) (e : OpenElement) (outer : List OpenElement) : ∃ pos,
    Reads outer endTag ⟨.content (depth + 1), c, { stack := rootElement scope nodes.reverse :: e :: outer }⟩
      ⟨.content depth, ⟨pos, rest⟩, { stack := e.add (.element fragmentRoot [] nodes) :: outer }⟩ := by
  obtain ⟨pos, hnext⟩ := nextInContent_endTag h (depth + 1)
  refine ⟨pos, ?_⟩
  have hstep : step ⟨.content (depth + 1), c, { stack := rootElement scope nodes.reverse :: e :: outer }⟩ =
      .ok (some
        ⟨.content depth, ⟨pos, rest⟩, { stack := e.add (.element fragmentRoot [] nodes) :: outer }⟩) := by
    refine step_eq_some.mpr ⟨.closeTag rootName c.pos, hnext, ?_⟩
    simp [Builder.accept, Builder.place, rootElement, OpenElement.close, rootName]
  rw [← List.append_nil endTag]
  exact .step ⟨rootElement scope nodes.reverse, [e], rfl⟩ hstep (by decide) h (.stop ⟨_, [], rfl⟩)

/-- A balanced text between one more start tag and end tag is read as one more child of the innermost open
element. -/
theorem reads_nested {scope : Bindings} {content : List Char} {nodes : List Node}
    (h : Balanced scope content nodes) {e : OpenElement} (he : e.bindings = scope ++ more) (depth : Nat)
    (pos : Position) (rest : List Char) :
    ∃ pos', Reads outer (startTag ++ (content ++ endTag))
      ⟨.content depth, ⟨pos, startTag ++ (content ++ (endTag ++ rest))⟩, { stack := e :: outer }⟩
      ⟨.content depth, ⟨pos', rest⟩, { stack := e.add (.element fragmentRoot [] nodes) :: outer }⟩ := by
  obtain ⟨_, hreads⟩ := h
  let c : Cursor := ⟨pos, startTag ++ (content ++ (endTag ++ rest))⟩
  obtain ⟨pos₁, hstart⟩ := reads_startTag (c := c) rfl depth e outer
  have hgraft : Graft (endTagRest ++ rest) more (e :: outer) (depth + 1) content (opened scope content)
      ⟨.content (depth + 1), ⟨pos₁, content ++ (endTag ++ rest)⟩,
        { stack := rootElement e.bindings [] :: e :: outer }⟩ := by
    refine ⟨⟨rfl, by rw [endTag_eq, List.cons_append]⟩, ?_, rfl, ?_, rfl⟩
    · simp [opened, Place.under]
    · rw [he]
      rfl
  obtain ⟨u, hinside, hlast⟩ := reads_alike hreads rfl (opened_fits scope content) hgraft
  obtain ⟨place, c', tag, stack, root⟩ := u
  obtain ⟨⟨-, hrest⟩, hplace, htag, hstack, hroot⟩ := hlast
  obtain rfl : tag = none := by simpa using htag
  obtain rfl : place = .content (depth + 1) := by simpa [Place.under] using hplace
  cases hstack
  cases hroot
  have hrest' : c'.rest = endTag ++ rest := by
    rw [endTag_eq]
    exact hrest
  obtain ⟨pos', hend⟩ := reads_endTag hrest' depth (scope ++ more) nodes e outer
  exact ⟨pos', hstart.trans (hinside.under.trans hend)⟩

end readings

end Galley.Markup

namespace Galley.Compiler

open Markup Markup.Reading

theorem visit_fragmentRoot (c : Compiler) (attributes : Attributes) (children : List Node) (p : Pass) :
    Pass.visit c (.element fragmentRoot attributes children) p =
      if c.strict then .error (.unsupportedElement fragmentRoot) else Pass.visitAll c children p := by
  have htag : Tag.ofName fragmentRoot = .other fragmentRoot := by decide
  rw [Pass.visit, htag, Pass.enter]
  by_cases hstrict : c.strict = true
  · rw [if_pos hstrict, if_pos hstrict]
    rfl
  · rw [if_neg hstrict, if_neg hstrict]
    change (Pass.visitAll c children p >>= fun q => pure (q.leave (.other fragmentRoot))) = _
    cases Pass.visitAll c children p <;> rfl

/-- Markup is either refused, or the end tag put behind it closes the start tag put before it and all of the
markup is read between the two. A further element of that name is a child like any other, and one that no
compiler knows. -/
theorem fragment_enclosed (c : Compiler) (maxWidth : Length) :
    (∀ markup : String,
      (∃ fault, parseFragment markup = .error fault ∧ c.fragment markup maxWidth = .error (.markup fault)) ∨
      ∃ nodes tagged inside last closed, parseFragment markup = .ok nodes ∧
        Encloses markup nodes tagged inside last closed ∧
        c.fragment markup maxWidth = (do
          let k ← c.layout nodes maxWidth
          return ⟨k.elements, k.size, markup⟩)) ∧
    (∀ markup nodes, parseFragment markup = .ok nodes ↔ Balanced [] markup.toList nodes) ∧
    (∀ scope more content nodes (e : OpenElement), Balanced scope content nodes → e.bindings = scope ++ more →
      ∀ outer depth pos rest, ∃ pos', Reads outer (startTag ++ (content ++ endTag))
        ⟨.content depth, ⟨pos, startTag ++ (content ++ (endTag ++ rest))⟩, { stack := e :: outer }⟩
        ⟨.content depth, ⟨pos', rest⟩, { stack := e.add (.element fragmentRoot [] nodes) :: outer }⟩) ∧
    ∀ attributes children p, Pass.visit c (.element fragmentRoot attributes children) p =
      if c.strict then .error (.unsupportedElement fragmentRoot) else Pass.visitAll c children p := by
  refine ⟨fun markup => ?_, fun markup nodes => ⟨balanced_of_parse, parse_of_balanced⟩, ?_, visit_fragmentRoot c⟩
  · cases hparse : parseFragment markup with
    | error fault =>
      left
      refine ⟨fault, rfl, ?_⟩
      rw [fragment, hparse]
      rfl
    | ok nodes =>
      right
      obtain ⟨tagged, inside, last, closed, hencloses⟩ := encloses_of_balanced (balanced_of_parse hparse)
      exact ⟨nodes, tagged, inside, last, closed, rfl, hencloses, fragment_of_parse hparse⟩
  · intro scope more content nodes e hbalanced he outer depth pos rest
    exact reads_nested hbalanced he depth pos rest

/-- A nested root is a child of the fragment, and an end tag for the root itself is refused. -/
theorem fragment_enclosed_doubled :
    parseFragment "b" = .ok [.text "b"] ∧
    (∃ pos, Reads [] (startTag ++ (['b'] ++ endTag))
      ⟨.content 0, ⟨{}, startTag ++ (['b'] ++ (endTag ++ endTag))⟩, { stack := [rootElement [] []] }⟩
      ⟨.content 0, ⟨pos, endTag⟩, { stack := [rootElement [] [.element fragmentRoot [] [.text "b"]]] }⟩) ∧
    parseFragment "</richmark-fragment><richmark-fragment>" = .error (.unknownToken ⟨1, 40⟩) ∧
    monospaced.fragment "</richmark-fragment><richmark-fragment>" 0 =
      .error (.markup (.unknownToken ⟨1, 40⟩)) := by
  have hparse : parseFragment "b" = .ok [.text "b"] := by cbv
  have hfault : parseFragment "</richmark-fragment><richmark-fragment>" = .error (.unknownToken ⟨1, 40⟩) := by
    cbv
  obtain ⟨henclosed, hbalanced, hnested, -⟩ := fragment_enclosed monospaced 0
  refine ⟨hparse, ?_, hfault, ?_⟩
  · exact hnested [] [] ['b'] _ (rootElement [] []) ((hbalanced "b" _).mp hparse) rfl [] 0 {} endTag
  · obtain ⟨fault, hfault', hfragment⟩ | ⟨_, _, _, _, _, hok, -⟩ :=
      henclosed "</richmark-fragment><richmark-fragment>"
    · cases hfault.symm.trans hfault'
      exact hfragment
    · cases hfault.symm.trans hok

end Galley.Compiler
