import Galley.Proofs.Reading

/-! The element around a fragment is closed by the end tag behind the fragment and by no other. -/

namespace Galley.Markup

open Reading

def rootName : QName := ⟨"", fragmentRoot⟩

/-- The element around a fragment while it is open. The children are the last first. -/
def rootElement (scope : Bindings) (children : List Node) : OpenElement :=
  { name := rootName, attributes := [], bindings := scope, children }

section tags

variable {c : Cursor} {rest : List Char}

theorem qname_root {z : Char} (hz : isNameChar z = false) (h : c.rest = fragmentRoot.toList ++ z :: rest) :
    c.qname = .ok (rootName, ⟨c.pos.afterAll fragmentRoot.toList, z :: rest⟩) := by
  have htaken : fragmentRoot.toList.takeWhile isNameChar = fragmentRoot.toList := by decide
  have hdropped : fragmentRoot.toList.dropWhile isNameChar = [] := by decide
  have hname : QName.ofRun? fragmentRoot.toList = some rootName := by decide
  simp only [Cursor.qname, Cursor.run, h, takeWhile_append_stop hz, dropWhile_append_stop hz, htaken,
    hdropped, hname, List.nil_append]

theorem startTag_eq (rest : List Char) : startTag ++ rest = '<' :: (fragmentRoot.toList ++ '>' :: rest) := by
  have h : startTag = '<' :: (fragmentRoot.toList ++ ['>']) := by decide
  rw [h, List.cons_append, List.append_assoc, List.singleton_append]

theorem endTag_append_eq (rest : List Char) :
    endTag ++ rest = '<' :: '/' :: (fragmentRoot.toList ++ '>' :: rest) := by
  have h : endTag = '<' :: '/' :: (fragmentRoot.toList ++ ['>']) := by decide
  rw [h, List.cons_append, List.cons_append, List.append_assoc, List.singleton_append]

theorem tagName_startTag (h : c.rest = startTag ++ rest) : c.tagName =
    .ok (.tagName rootName (c.skip 1).pos, ⟨(c.skip 1).pos.afterAll fragmentRoot.toList, '>' :: rest⟩) := by
  have hskip : (c.skip 1).rest = fragmentRoot.toList ++ '>' :: rest := by
    rw [Cursor.skip, h, startTag_eq]
    rfl
  rw [Cursor.tagName, qname_root (by decide) hskip]
  rfl

theorem closeTag_endTag (h : c.rest = endTag ++ rest) : ∃ pos, c.closeTag =
    .ok (.closeTag rootName c.pos, ⟨pos, rest⟩) := by
  have hskip : (c.skip 2).rest = fragmentRoot.toList ++ '>' :: rest := by
    rw [Cursor.skip, h, endTag_append_eq]
    rfl
  rw [Cursor.closeTag, qname_root (by decide) hskip]
  exact ⟨_, rfl⟩

theorem nextInContent_startTag (h : c.rest = startTag ++ rest) (depth : Nat) : nextInContent depth c =
    .ok (some (.tagName rootName (c.skip 1).pos, .tag (depth + 1),
      ⟨(c.skip 1).pos.afterAll fragmentRoot.toList, '>' :: rest⟩)) := by
  have htoken := tagName_startTag h
  have hfirst : fragmentRoot.toList = 'r' :: fragmentRoot.toList.tail := by decide
  rw [startTag_eq, hfirst] at h
  rw [nextInContent_eq, htoken]
  simp [h]

theorem nextInContent_endTag (h : c.rest = endTag ++ rest) (depth : Nat) : ∃ pos, nextInContent depth c =
    .ok (some (.closeTag rootName c.pos, .closed depth, ⟨pos, rest⟩)) := by
  obtain ⟨pos, htoken⟩ := closeTag_endTag h
  refine ⟨pos, ?_⟩
  rw [endTag_append_eq] at h
  rw [nextInContent_eq, htoken]
  simp [h]

theorem nextInTag_end (h : c.rest = '>' :: rest) (depth : Nat) :
    nextInTag depth c = .ok (some (.tagEnd false, .content depth, c.spaces.skip 1)) ∧
      (c.spaces.skip 1).rest = rest := by
  have hspaces : c.spaces.rest = '>' :: rest := by
    have hnone : isSpace '>' = false := by decide
    simp [Cursor.spaces, Cursor.run, h, hnone]
  constructor
  · rw [nextInTag_eq hspaces]
    rfl
  · rw [Cursor.skip, hspaces]
    rfl

theorem nextInTag_endTag (h : c.rest = endTag) (depth : Nat) : ∃ fault, nextInTag depth c = .error fault := by
  have hspaces : c.spaces.rest = '<' :: endTagRest := by
    have hnone : isSpace '<' = false := by decide
    simp [Cursor.spaces, Cursor.run, h, endTag_eq, hnone]
  have hspace : (!isSpace (c.rest.headD '<')) = true := by
    rw [h]
    decide
  rw [nextInTag_eq hspaces, if_neg (by decide), if_neg (by decide), if_pos hspace]
  exact ⟨_, rfl⟩

end tags

theorem alongside_self {c : Cursor} {m : List Char} (h : c.rest = m ++ endTag) : Alongside endTagRest m c c :=
  ⟨h, by rw [h, endTag_eq]⟩

/-- A reading that has left the outermost element cannot get past the end tag. -/
theorem read_afterRoot_ne_ok {fuel : Nat} {c : Cursor} {b b' : Builder} {m : List Char}
    (h : c.rest = m ++ endTag) :
    Builder.read fuel .afterRoot c b ≠ .ok b' := by
  induction fuel generalizing c b m with
  | zero =>
    intro hread
    cases hread
  | succ fuel ih =>
    intro hread
    obtain ⟨found, hfound, hread⟩ := bind_eq_ok hread
    obtain ⟨token, _, place, c', _, m', rfl, -, -, h', -⟩ :=
      nextAfterRoot_alongside (alongside_self h) found hfound
    obtain ⟨b₁, _, hread⟩ := bind_eq_ok hread
    cases nextAfterRoot_moves hfound
    exact ih h'.left hread

theorem next_closed_of_nil {c : Cursor} (h : c.rest = []) (depth : Nat) :
    next (.closed depth) c = .ok none := by
  have hspaces : c.spaces.rest = [] := by simp [Cursor.spaces, Cursor.run, h]
  cases depth with
  | zero =>
    change nextAfterRoot c = _
    rw [nextAfterRoot, hspaces]
    rfl
  | succ depth =>
    change nextInContent depth c = _
    rw [nextInContent, h]
    rfl

theorem read_closed_of_nil {c : Cursor} (h : c.rest = []) (fuel depth : Nat) (b : Builder) :
    Builder.read (fuel + 1) (.closed depth) c b = .ok b := by
  rw [Builder.read, next_closed_of_nil h]
  rfl

/-- With nothing before the end tag, a reading that goes through is in the content of the outermost element alone,
and the end tag closes that. -/
theorem last_of_read {fuel : Nat} {r s : Reading} {b : Builder} {root : Node} (h : Fits r.place r.builder)
    (hopen : r.builder.stack ≠ []) (hrest : r.cursor.rest = endTag) (hs : r.step = .ok (some s))
    (hread : Builder.read fuel s.place s.cursor s.builder = .ok b) (hroot : b.root = some root) :
    ∃ pos e, r = ⟨.content 0, ⟨pos, endTag⟩, { stack := [e] }⟩ ∧ root = e.close := by
  obtain ⟨token, hfound, hturns⟩ := step_turns h hs
  obtain ⟨place, ⟨pos, rest⟩, builder⟩ := r
  obtain ⟨place', cursor', builder'⟩ := s
  dsimp only at *
  subst hrest
  cases h with
  | tag t stack =>
    obtain ⟨fault, hfault⟩ := nextInTag_endTag (c := ⟨pos, endTag⟩) rfl stack.length
    rw [next, hfault] at hfound
    cases hfound
  | content e outer =>
    have hrest := (List.append_nil endTag).symm
    obtain ⟨pos', hnext⟩ := nextInContent_endTag (c := ⟨pos, endTag⟩) hrest outer.length
    rw [next, hnext] at hfound
    simp only [Except.ok.injEq, Option.some.injEq, Prod.mk.injEq] at hfound
    obtain ⟨rfl, rfl, rfl⟩ := hfound
    have hbuilder : builder' = ({ stack := outer } : Builder).place e.close := by
      generalize Place.content outer.length = place, Place.closed outer.length = place' at hturns
      cases hturns
      rfl
    cases fuel with
    | zero => cases hread
    | succ fuel =>
    rw [read_closed_of_nil rfl, hbuilder] at hread
    cases hread
    cases outer with
    | nil =>
      cases hroot
      exact ⟨pos, e, rfl, rfl⟩
    | cons f outer => cases hroot
  | afterRoot root => exact absurd rfl hopen

/-- A reading that goes through and ends with a root has read all of the text before the end tag inside that. -/
theorem reads_of_read {fuel : Nat} {r : Reading} {m : List Char} {b : Builder} {root : Node}
    (h : Fits r.place r.builder) (hopen : r.builder.stack ≠ []) (hrest : r.cursor.rest = m ++ endTag)
    (hread : Builder.read fuel r.place r.cursor r.builder = .ok b) (hroot : b.root = some root) :
    ∃ pos e, Reads [] m r ⟨.content 0, ⟨pos, endTag⟩, { stack := [e] }⟩ ∧ root = e.close := by
  induction fuel generalizing r m with
  | zero => cases hread
  | succ fuel ih =>
    obtain rfl | ⟨s, hs, hread⟩ := step_of_read hread
    · rw [h.root_none hopen] at hroot
      cases hroot
    by_cases hm : m = []
    · subst hm
      obtain ⟨pos, e, rfl, hclose⟩ := last_of_read h hopen hrest hs hread hroot
      exact ⟨pos, e, .stop ⟨e, [], rfl⟩, hclose⟩
    obtain ⟨token, hfound, hturns⟩ := step_turns h hs
    obtain ⟨_, _, _, _, _, m', hsome, -, -, h', hs'⟩ :=
      next_alongside (alongside_self hrest) hm (h.ne_afterRoot hopen) 0 _ hfound
    cases hsome
    -- Were the last element closed here, the end tag would still be to come, and no reading goes on from that.
    by_cases hclosed : s.builder.stack = []
    · rw [hturns.afterRoot hopen hclosed] at hread
      exact absurd hread (read_afterRoot_ne_ok h'.left)
    · obtain ⟨pos, e, hreads, hclose⟩ := ih hturns.fits hclosed h'.left hread
      obtain ⟨z, ys, rfl⟩ := List.exists_cons_of_ne_nil hm
      obtain ⟨taken, rfl⟩ := hs'
      have hrest' : r.cursor.rest = (z :: taken) ++ s.cursor.rest := by
        rw [hrest, h'.left, List.cons_append, List.cons_append, List.append_assoc]
      exact ⟨pos, e, .step (over_nil hopen) hs (List.cons_ne_nil z taken) hrest' hreads, hclose⟩

/-- The first token of a text, which opens the outermost element. -/
def Reading.start (text : List Char) : Except Fault Reading := do
  let (token, cursor) ← Cursor.tagName ⟨{}, text⟩
  return ⟨.tag 0, cursor, ← Builder.accept {} token⟩

theorem parse_eq_ok {text : List Char} {root : Node} : parse text = .ok root ↔ ∃ r b, start text = .ok r ∧
    Builder.read (text.length + 1) r.place r.cursor r.builder = .ok b ∧ b.root = some root := by
  constructor
  · intro h
    obtain ⟨⟨token, c⟩, htoken, h⟩ := bind_eq_ok h
    obtain ⟨b₀, haccept, h⟩ := bind_eq_ok h
    obtain ⟨b, hread, h⟩ := bind_eq_ok h
    refine ⟨⟨.tag 0, c, b₀⟩, b, ?_, hread, ?_⟩
    · simp only [start, htoken, haccept, bind, Except.bind]
      rfl
    · cases hroot : b.root with
      | none => simp [hroot] at h
      | some node =>
        simp only [hroot] at h
        cases h
        rfl
  · rintro ⟨r, b, hstart, hread, hroot⟩
    obtain ⟨⟨token, c⟩, htoken, hstart⟩ := bind_eq_ok hstart
    obtain ⟨b₀, haccept, hstart⟩ := bind_eq_ok hstart
    cases hstart
    simp only [parse, htoken, haccept, hread, hroot, bind, Except.bind]
    rfl

/-- What the reader makes of the start tag before a content, but for the bindings in whose scope it stands. -/
def opened (scope : Bindings) (content : List Char) : Reading :=
  ⟨.content 0, ⟨({} : Position).afterAll startTag, content ++ endTag⟩, { stack := [rootElement scope []] }⟩

/-- The text closes each element that it opens, and not the one it is the content of, in which it leaves the
given nodes. -/
def Balanced (scope : Bindings) (content : List Char) (nodes : List Node) : Prop :=
  ∃ pos, Reads [] content (opened scope content)
    ⟨.content 0, ⟨pos, endTag⟩, { stack := [rootElement scope nodes.reverse] }⟩

theorem start_wrap (markup : String) : ∃ r, start (wrap markup) = .ok r ∧
    r.cursor.rest = '>' :: (markup.toList ++ endTag) ∧ r.step = .ok (some (opened [] markup.toList)) := by
  have htoken := tagName_startTag (c := ⟨{}, wrap markup⟩) (wrap_eq markup)
  have hpos : (Cursor.skip ⟨{}, wrap markup⟩ 1).pos = ({} : Position).after '<' := by
    rw [wrap_eq, startTag_eq]
    rfl
  rw [hpos] at htoken
  let pos : Position := ({} : Position).after '<'
  let c : Cursor := ⟨pos.afterAll fragmentRoot.toList, '>' :: (markup.toList ++ endTag)⟩
  refine ⟨⟨.tag 0, c, { tag := some { name := rootName, pos } }⟩, ?_, rfl, ?_⟩
  · rw [start, htoken]
    rfl
  · rw [step_eq_some]
    refine ⟨.tagEnd false, ?_, ?_⟩
    · have hrest : c.rest = '>' :: (markup.toList ++ endTag) := rfl
      exact (nextInTag_end hrest 0).1
    · rw [opened]
      rfl

theorem step_last (scope : Bindings) (pos : Position) (nodes : List Node) : ∃ pos',
    step ⟨.content 0, ⟨pos, endTag⟩, { stack := [rootElement scope nodes.reverse] }⟩ =
      .ok (some ⟨.afterRoot, ⟨pos', []⟩, { root := some (.element fragmentRoot [] nodes) }⟩) := by
  obtain ⟨pos', hnext⟩ := nextInContent_endTag (c := ⟨pos, endTag⟩) (List.append_nil endTag).symm 0
  refine ⟨pos', step_eq_some.mpr ⟨.closeTag rootName pos, hnext, ?_⟩⟩
  simp [Builder.accept, Builder.place, rootElement, rootName, OpenElement.close]

theorem opened_fits (scope : Bindings) (content : List Char) :
    Fits (opened scope content).place (opened scope content).builder := Fits.content (rootElement scope []) []

theorem eq_rootElement {e : OpenElement} {scope : Bindings} (h : e.bare = rootElement scope []) :
    e = rootElement scope e.children.reverse.reverse := by
  obtain ⟨name, attributes, bindings, children⟩ := e
  cases h
  rw [List.reverse_reverse]
  rfl

theorem balanced_of_parse {markup : String} {nodes : List Node} (h : parseFragment markup = .ok nodes) :
    Balanced [] markup.toList nodes := by
  obtain ⟨root, hparse, hnodes⟩ := bind_eq_ok h
  obtain ⟨r, b, hstart, hread, hroot⟩ := parse_eq_ok.mp hparse
  obtain ⟨r', hstart', -, hstep⟩ := start_wrap markup
  cases hstart.symm.trans hstart'
  rw [read_of_step hstep] at hread
  have hfits := opened_fits [] markup.toList
  obtain ⟨pos, e, hreads, rfl⟩ := reads_of_read hfits (List.cons_ne_nil _ _) rfl hread hroot
  have hlast := hreads.outermost hfits
  have he := eq_rootElement (Option.some.inj hlast)
  cases hnodes
  exact ⟨pos, he ▸ hreads⟩

/-- How the reader goes over a fragment between its tags. One tag opens the outermost element, the whole markup
is read while that stays open, and the other tag closes it, behind which nothing is left. -/
structure Encloses (markup : String) (nodes : List Node) (tagged inside last closed : Reading) : Prop where
  start : Reading.start (wrap markup) = .ok tagged
  opening : tagged.step = .ok (some inside)
  before : inside.cursor.rest = markup.toList ++ endTag
  empty : inside.builder.stack = [rootElement [] []]
  reads : Reads [] markup.toList inside last
  behind : last.cursor.rest = endTag
  full : last.builder.stack = [rootElement [] nodes.reverse]
  closing : last.step = .ok (some closed)
  done : closed.cursor.rest = []
  root : closed.builder = { root := some (.element fragmentRoot [] nodes) }

theorem encloses_of_balanced {markup : String} {nodes : List Node} (h : Balanced [] markup.toList nodes) :
    ∃ tagged inside last closed, Encloses markup nodes tagged inside last closed := by
  obtain ⟨pos, hreads⟩ := h
  obtain ⟨r, hstart, -, hstep⟩ := start_wrap markup
  obtain ⟨pos', hlast⟩ := step_last [] pos nodes
  exact ⟨r, opened [] markup.toList, _, _, hstart, hstep, rfl, rfl, hreads, rfl, rfl, hlast, rfl, rfl⟩

theorem parse_of_balanced {markup : String} {nodes : List Node} (h : Balanced [] markup.toList nodes) :
    parseFragment markup = .ok nodes := by
  obtain ⟨pos, hreads⟩ := h
  obtain ⟨n, hn, hread⟩ := hreads.read
  obtain ⟨r, hstart, -, hstep⟩ := start_wrap markup
  obtain ⟨pos', hlast⟩ := step_last [] pos nodes
  obtain ⟨fuel, hfuel⟩ : ∃ fuel, (wrap markup).length = n + (fuel + 2) := by
    have hopening : startTag.length = 19 := by decide
    have hclosing : endTag.length = 20 := by decide
    refine ⟨(wrap markup).length - n - 2, ?_⟩
    rw [wrap_eq, List.length_append, List.length_append, hopening, hclosing]
    omega
  have hread' : Builder.read ((wrap markup).length + 1) r.place r.cursor r.builder =
      .ok { root := some (.element fragmentRoot [] nodes) } := by
    rw [read_of_step hstep, hfuel, hread, read_of_step hlast]
    exact read_closed_of_nil rfl fuel 0 _
  have hparse : parse (wrap markup) = .ok (.element fragmentRoot [] nodes) :=
    parse_eq_ok.mpr ⟨r, _, hstart, hread', rfl⟩
  rw [parseFragment, hparse]
  rfl

end Galley.Markup
