import Mathlib.Data.List.Infix
import Galley.Markup.Document
import Galley.Proofs.Failure

/-! What the reader makes of the text before the end tag of a fragment. No token begins before the tag and ends
behind its start, and what is read before it is the same whatever else begins there like a tag. -/

namespace Galley.Markup

def startTag : List Char := s!"<{fragmentRoot}>".toList

def endTag : List Char := s!"</{fragmentRoot}>".toList

def endTagRest : List Char := s!"/{fragmentRoot}>".toList

theorem endTag_eq : endTag = '<' :: endTagRest := by decide

theorem wrap_eq (markup : String) : wrap markup = startTag ++ (markup.toList ++ endTag) :=
  List.append_assoc startTag markup.toList endTag

section stop

variable {p : Char → Bool} {z : Char} (hp : p z = false) (m s : List Char)

include hp

theorem takeWhile_append_stop : (m ++ z :: s).takeWhile p = m.takeWhile p := by
  induction m with
  | nil => simp [hp]
  | cons y m ih =>
    by_cases hy : p y = true
    · simp [hy, ih]
    · simp [hy]

theorem dropWhile_append_stop : (m ++ z :: s).dropWhile p = m.dropWhile p ++ z :: s := by
  induction m with
  | nil => simp [hp]
  | cons y m ih =>
    by_cases hy : p y = true
    · simp [hy, ih]
    · simp [hy]

end stop

theorem isPrefixOf_append_stop {part : List Char} (h : '<' ∉ part) (m s : List Char) :
    part.isPrefixOf (m ++ '<' :: s) = part.isPrefixOf m := by
  induction part generalizing m with
  | nil => simp
  | cons y part ih =>
    simp only [List.mem_cons, not_or] at h
    cases m with
    | nil =>
      have hy : (y == '<') = false := beq_eq_false_iff_ne.mpr (Ne.symm h.1)
      rw [List.nil_append, List.isPrefixOf_cons_cons, hy, Bool.false_and]
      rfl
    | cons z m => rw [List.cons_append, List.isPrefixOf_cons_cons, List.isPrefixOf_cons_cons, ih h.2]

/-- Two cursors before the same characters, which the end tag follows on the left and any text that begins like a
tag on the right. -/
structure Alongside (x m : List Char) (c d : Cursor) : Prop where
  left : c.rest = m ++ endTag
  right : d.rest = m ++ '<' :: x

namespace Cursor

variable {x m : List Char} {c c' d : Cursor}

theorem run_alongside (h : Alongside x m c d) {p : Char → Bool} (hp : p '<' = false) :
    (d.run p).1 = (c.run p).1 ∧ Alongside x (m.dropWhile p) (c.run p).2 (d.run p).2 := by
  have hc := h.left
  rw [endTag_eq] at hc
  refine ⟨?_, ?_, ?_⟩
  · simp only [run, hc, h.right, takeWhile_append_stop hp]
  · simp only [run, hc, dropWhile_append_stop hp, endTag_eq]
  · simp only [run, h.right, dropWhile_append_stop hp]

theorem skip_alongside (h : Alongside x m c d) {n : Nat} (hn : n ≤ m.length) :
    Alongside x (m.drop n) (c.skip n) (d.skip n) := by
  constructor
  · rw [skip, h.left, List.drop_append_of_le_length hn]
  · rw [skip, h.right, List.drop_append_of_le_length hn]

theorem expect_alongside (h : Alongside x m c d) {y : Char} (hy : y ≠ '<') (hc : c.expect y = .ok c') :
    ∃ d' m', d.expect y = .ok d' ∧ Alongside x m' c' d' ∧ m = y :: m' := by
  have hleft := h.left
  have hright := h.right
  cases m with
  | nil =>
    rw [endTag_eq, List.nil_append] at hleft
    simp [expect, hleft, Ne.symm hy] at hc
  | cons z m =>
    rw [List.cons_append] at hleft hright
    by_cases hz : z = y
    · simp only [expect, hleft, hz, if_true, Except.ok.injEq] at hc
      subst hc
      exact ⟨⟨d.pos.after z, m ++ '<' :: x⟩, m, by simp [expect, hright, hz], ⟨rfl, rfl⟩, by rw [hz]⟩
    · simp [expect, hleft, hz] at hc

theorem checked_eq_ok (hc : c.checked = .ok c') : c' = c := by
  rw [checked] at hc
  split at hc
  · split at hc
    · exact (Except.ok.inj hc).symm
    · cases hc
  · exact (Except.ok.inj hc).symm

theorem checked_alongside (h : Alongside x m c d) (hc : c.checked = .ok c') : d.checked = .ok d := by
  have hleft := h.left
  have hright := h.right
  cases m with
  | nil =>
    have hstop : isAllowed '<' = true := by decide
    rw [List.nil_append] at hright
    simp [checked, hright, hstop]
  | cons y m =>
    rw [List.cons_append] at hleft hright
    by_cases hy : isAllowed y = true
    · simp [checked, hright, hy]
    · simp [checked, hleft, hy] at hc

theorem textBefore_alongside (h : Alongside x m c d) {stops taken : List Char} (hs : '<' ∈ stops)
    (hc : c.textBefore stops = .ok (taken, c')) :
    ∃ d' m', d.textBefore stops = .ok (taken, d') ∧ Alongside x m' c' d' ∧ m' <:+ m := by
  have hp : (isAllowed '<' && !stops.contains '<') = false := by simp [hs]
  obtain ⟨htaken, hrun⟩ := run_alongside h (p := fun y => isAllowed y && !stops.contains y) hp
  obtain ⟨c₁, hchecked, hc⟩ := bind_eq_ok hc
  cases hc
  have hd := checked_alongside hrun hchecked
  obtain rfl := checked_eq_ok hchecked
  refine ⟨_, _, ?_, hrun, List.dropWhile_suffix _⟩
  rw [textBefore]
  change (do
    let d' ← (d.run fun y => isAllowed y && !stops.contains y).2.checked
    return ((d.run fun y => isAllowed y && !stops.contains y).1, d')) = _
  rw [hd, htaken]
  rfl

theorem name_alongside (h : Alongside x m c d) {taken : List Char} (hc : c.name = .ok (taken, c')) :
    ∃ d' m', d.name = .ok (taken, d') ∧ Alongside x m' c' d' ∧ m' <:+ m := by
  have hleft := h.left
  have hright := h.right
  obtain ⟨htaken, hrun⟩ := run_alongside h (p := isNameChar) (by decide)
  cases m with
  | nil =>
    have hstop : isNameStart '<' = false := by decide
    rw [endTag_eq, List.nil_append] at hleft
    simp [name, hleft, hstop] at hc
  | cons y m =>
    rw [List.cons_append] at hleft hright
    by_cases hy : isNameStart y = true
    · simp only [name, hleft, hy, if_true, Except.ok.injEq] at hc
      rw [hc] at htaken hrun
      refine ⟨_, _, ?_, hrun, List.dropWhile_suffix _⟩
      simp only [name, hright, hy, if_true]
      exact congrArg Except.ok (Prod.ext htaken rfl)
    · simp [name, hleft, hy] at hc

theorem qname_alongside (h : Alongside x m c d) {name : QName} (hc : c.qname = .ok (name, c')) :
    ∃ d' m', d.qname = .ok (name, d') ∧ Alongside x m' c' d' ∧ m' <:+ m := by
  obtain ⟨htaken, hrun⟩ := run_alongside h (p := isNameChar) (by decide)
  simp only [qname] at hc ⊢
  cases hq : QName.ofRun? (c.run isNameChar).1 with
  | none => simp [hq] at hc
  | some q =>
    simp only [hq, Except.ok.injEq, Prod.mk.injEq] at hc
    obtain ⟨rfl, rfl⟩ := hc
    exact ⟨_, _, by simp only [htaken, hq], hrun, List.dropWhile_suffix _⟩

theorem splitWhere_suffix (stop : List Char → Bool) (taken xs : List Char) :
    (splitWhere stop taken xs).2 <:+ xs := by
  induction xs generalizing taken with
  | nil => exact List.suffix_rfl
  | cons y xs ih =>
    rw [splitWhere]
    by_cases hy : stop (y :: xs) = true
    · rw [if_pos hy]
    · rw [if_neg hy]
      exact (ih (y :: taken)).trans (List.suffix_cons y xs)

/-- Where a search for a delimiter stops. -/
def atEnd (part xs : List Char) : Bool := part.isPrefixOf xs || !isAllowed (xs.headD ' ')

theorem textThrough_eq {delimiter : String} {taken rest : List Char}
    (h : splitWhere (atEnd delimiter.toList) [] c.rest = (taken, rest)) :
    c.textThrough delimiter = (do
      let c' ← checked ⟨c.pos.afterAll taken, rest⟩
      if delimiter.toList.isPrefixOf c'.rest = true then .ok (taken, c'.skip delimiter.length)
      else .error (.missingDelimiter delimiter c'.pos)) := by
  change splitWhere (fun xs => delimiter.toList.isPrefixOf xs || !isAllowed (xs.headD ' ')) [] c.rest = _ at h
  rw [textThrough, h]
  rfl

/-- A delimiter without the first character of a tag that is found is found before the end tag, unless the end
tag holds it. -/
theorem splitWhere_alongside {part : List Char} (hpart : '<' ∉ part)
    (hfree : ∀ r ∈ endTag.tails, part.isPrefixOf r = false) (m taken : List Char) {body rest : List Char}
    (hc : splitWhere (atEnd part) taken (m ++ endTag) = (body, rest)) (hfound : part.isPrefixOf rest = true) :
    ∃ m', rest = m' ++ endTag ∧ m' <:+ m ∧ part.isPrefixOf m' = true ∧
      splitWhere (atEnd part) taken (m ++ '<' :: x) = (body, m' ++ '<' :: x) := by
  induction m generalizing taken with
  | nil =>
    have hsuffix := splitWhere_suffix (atEnd part) taken endTag
    rw [List.nil_append] at hc
    rw [hc] at hsuffix
    rw [hfree rest ((List.mem_tails _ _).mpr hsuffix)] at hfound
    cases hfound
  | cons y m ih =>
    have hstop : ∀ s, part.isPrefixOf (y :: (m ++ '<' :: s)) = part.isPrefixOf (y :: m) :=
      fun s => isPrefixOf_append_stop hpart (y :: m) s
    have hstop' : part.isPrefixOf (y :: (m ++ endTag)) = part.isPrefixOf (y :: m) := by
      rw [endTag_eq]
      exact hstop endTagRest
    rw [List.cons_append, splitWhere, atEnd, hstop', List.headD_cons] at hc
    rw [List.cons_append, splitWhere, atEnd, hstop, List.headD_cons]
    by_cases hy : (part.isPrefixOf (y :: m) || !isAllowed y) = true
    · rw [if_pos hy] at hc ⊢
      obtain ⟨rfl, rfl⟩ := Prod.mk.inj hc
      exact ⟨y :: m, rfl, List.suffix_rfl, by rwa [hstop'] at hfound, rfl⟩
    · rw [if_neg hy] at hc ⊢
      obtain ⟨m', hrest, hsuffix, hprefix, hd⟩ := ih (y :: taken) hc
      exact ⟨m', hrest, hsuffix.trans (List.suffix_cons y m), hprefix, hd⟩

theorem textThrough_alongside (h : Alongside x m c d) {delimiter : String} (hpart : '<' ∉ delimiter.toList)
    (hfree : ∀ r ∈ endTag.tails, delimiter.toList.isPrefixOf r = false) {body : List Char}
    (hc : c.textThrough delimiter = .ok (body, c')) :
    ∃ d' m', d.textThrough delimiter = .ok (body, d') ∧ Alongside x m' c' d' ∧ m' <:+ m := by
  cases hsplit : splitWhere (atEnd delimiter.toList) [] c.rest with
  | mk taken rest =>
    rw [textThrough_eq hsplit] at hc
    obtain ⟨c₁, hchecked, hc⟩ := bind_eq_ok hc
    obtain rfl := checked_eq_ok hchecked
    by_cases hfound : delimiter.toList.isPrefixOf rest = true
    · rw [if_pos hfound] at hc
      cases hc
      rw [h.left] at hsplit
      obtain ⟨m', rfl, hsuffix, hprefix, hd⟩ := splitWhere_alongside (x := x) hpart hfree m [] hsplit hfound
      rw [← h.right] at hd
      have hlength : delimiter.length ≤ m'.length := by
        rw [← String.length_toList]
        exact (List.isPrefixOf_iff_prefix.mp hprefix).length_le
      have hfound' : delimiter.toList.isPrefixOf (m' ++ '<' :: x) = true := by
        rwa [isPrefixOf_append_stop hpart]
      have hrest : Alongside x m' ⟨c.pos.afterAll body, m' ++ endTag⟩ ⟨d.pos.afterAll body, m' ++ '<' :: x⟩ :=
        ⟨rfl, rfl⟩
      refine ⟨_, _, ?_, skip_alongside hrest hlength, (List.drop_suffix _ _).trans hsuffix⟩
      rw [textThrough_eq hd, checked_alongside hrest hchecked]
      exact if_pos hfound'
    · rw [if_neg hfound] at hc
      cases hc

theorem spaces_alongside (h : Alongside x m c d) : Alongside x (m.dropWhile isSpace) c.spaces d.spaces :=
  (run_alongside h (by decide)).2

end Cursor

/-- A token without the places where it stands. -/
def Token.bare : Token → Token
  | .tagName name _ => .tagName name {}
  | .attr name value _ _ => .attr name value {} {}
  | .closeTag name _ => .closeTag name {}
  | .text raw _ => .text raw {}
  | token => token

/-- What is read on the left is read on the right as well, except for the places, and leaves the cursors
alongside each other. -/
def SameToken (x m : List Char) (left right : Except Fault (Token × Cursor)) : Prop :=
  ∀ token c', left = .ok (token, c') → ∃ token' d' m', right = .ok (token', d') ∧ token'.bare = token.bare ∧
    Alongside x m' c' d' ∧ m' <:+ m.tail

namespace Cursor

variable {x m : List Char} {c d : Cursor}

theorem drop_suffix_tail (n : Nat) (m : List Char) : m.drop (n + 1) <:+ m.tail := by
  cases m with
  | nil => simp
  | cons y m => exact List.drop_suffix n m

theorem comment_alongside (h : Alongside x m c d) (hm : 4 ≤ m.length) :
    SameToken x m c.comment d.comment := by
  intro token c' hc
  obtain ⟨⟨body, c₁⟩, hbody, hc⟩ := bind_eq_ok hc
  obtain ⟨d₁, m₁, hd, h₁, hs⟩ := textThrough_alongside (skip_alongside h hm) (by decide) (by decide) hbody
  obtain ⟨hnone, hc⟩ := guard_eq_ok hc
  cases hc
  refine ⟨.aside, d₁, m₁, ?_, rfl, h₁, hs.trans (drop_suffix_tail 3 m)⟩
  rw [comment, hd]
  exact if_neg hnone

theorem verbatim_alongside (h : Alongside x m c d) (hm : 9 ≤ m.length) :
    SameToken x m c.verbatim d.verbatim := by
  intro token c' hc
  obtain ⟨⟨content, c₁⟩, hcontent, hc⟩ := bind_eq_ok hc
  cases hc
  obtain ⟨d₁, m₁, hd, h₁, hs⟩ := textThrough_alongside (skip_alongside h hm) (by decide) (by decide) hcontent
  refine ⟨.verbatim content, d₁, m₁, ?_, rfl, h₁, hs.trans (drop_suffix_tail 8 m)⟩
  rw [verbatim, hd]
  rfl

theorem instruction_alongside (h : Alongside x m c d) (hm : 2 ≤ m.length) :
    SameToken x m c.instruction d.instruction := by
  intro token c' hc
  rw [instruction] at hc
  obtain ⟨hnone, hc⟩ := guard_eq_ok hc
  obtain ⟨⟨target, c₁⟩, hname, hc⟩ := bind_eq_ok hc
  obtain ⟨⟨body, c₂⟩, hbody, hc⟩ := bind_eq_ok hc
  cases hc
  obtain ⟨d₁, m₁, hd₁, h₁, hs₁⟩ := name_alongside (skip_alongside h hm) hname
  obtain ⟨d₂, m₂, hd₂, h₂, hs₂⟩ := textThrough_alongside (spaces_alongside h₁) (by decide) (by decide) hbody
  have hnone' : ¬ "<?xml ".toList.isPrefixOf d.rest = true := by
    cases m with
    | nil => simp at hm
    | cons y m =>
      have hparts : "<?xml ".toList = '<' :: "?xml ".toList := by decide
      rw [h.left, endTag_eq, hparts, List.cons_append, List.isPrefixOf_cons_cons,
        isPrefixOf_append_stop (by decide)] at hnone
      rwa [h.right, hparts, List.cons_append, List.isPrefixOf_cons_cons, isPrefixOf_append_stop (by decide)]
  refine ⟨.aside, d₂, m₂, ?_, rfl, h₂, ?_⟩
  · simp only [instruction, if_neg hnone', hd₁, hd₂, bind, Except.bind]
    rfl
  · exact ((hs₂.trans (List.dropWhile_suffix _)).trans hs₁).trans (drop_suffix_tail 1 m)

theorem closeTag_alongside (h : Alongside x m c d) (hm : 2 ≤ m.length) :
    SameToken x m c.closeTag d.closeTag := by
  intro token c' hc
  obtain ⟨⟨name, c₁⟩, hname, hc⟩ := bind_eq_ok hc
  obtain ⟨c₂, hend, hc⟩ := bind_eq_ok hc
  cases hc
  obtain ⟨d₁, m₁, hd₁, h₁, hs₁⟩ := qname_alongside (skip_alongside h hm) hname
  obtain ⟨d₂, m₂, hd₂, h₂, hm₂⟩ := expect_alongside (spaces_alongside h₁) (by decide) hend
  refine ⟨.closeTag name d.pos, d₂, m₂, ?_, rfl, h₂, ?_⟩
  · rw [closeTag, hd₁]
    change (do return (Token.closeTag name d.pos, ← d₁.spaces.expect '>')) = _
    rw [hd₂]
    rfl
  · have hs₂ : m₂ <:+ m₁.dropWhile isSpace := hm₂ ▸ List.suffix_cons '>' m₂
    exact ((hs₂.trans (List.dropWhile_suffix _)).trans hs₁).trans (drop_suffix_tail 1 m)

theorem tagName_alongside (h : Alongside x m c d) (hm : 1 ≤ m.length) :
    SameToken x m c.tagName d.tagName := by
  intro token c' hc
  obtain ⟨⟨name, c₁⟩, hname, hc⟩ := bind_eq_ok hc
  cases hc
  obtain ⟨d₁, m₁, hd₁, h₁, hs₁⟩ := qname_alongside (skip_alongside h hm) hname
  refine ⟨.tagName name (d.skip 1).pos, d₁, m₁, ?_, rfl, h₁, hs₁.trans (drop_suffix_tail 0 m)⟩
  rw [tagName, hd₁]
  rfl

theorem textBefore_takes {c' : Cursor} {stops taken rest : List Char} {y : Char} (hrest : c.rest = y :: rest)
    (hy : y ∉ stops) (hc : c.textBefore stops = .ok (taken, c')) : c'.rest <:+ rest := by
  obtain ⟨c₁, hchecked, hc⟩ := bind_eq_ok hc
  cases hc
  obtain rfl := checked_eq_ok hchecked
  by_cases ha : isAllowed y = true
  · have hdrop : (y :: rest).dropWhile (fun z => isAllowed z && !stops.contains z) =
        rest.dropWhile fun z => isAllowed z && !stops.contains z := by simp [ha, hy]
    simp only [hrest, hdrop]
    exact List.dropWhile_suffix _
  · simp [hrest, ha, checked] at hchecked

theorem suffix_of_append {s t e : List Char} (h : s ++ e <:+ t ++ e) : s <:+ t := by
  obtain ⟨u, hu⟩ := h
  rw [← List.append_assoc] at hu
  exact ⟨u, List.append_cancel_right hu⟩

theorem text_alongside (h : Alongside x m c d) (hm : m ≠ []) (htag : ¬ ['<'] <+: m) :
    SameToken x m c.text d.text := by
  intro token c' hc
  obtain ⟨y, m, rfl⟩ := List.exists_cons_of_ne_nil hm
  obtain ⟨⟨raw, c₁⟩, hraw, hc⟩ := bind_eq_ok hc
  obtain ⟨hnone, hc⟩ := guard_eq_ok hc
  cases hc
  obtain ⟨d₁, m₁, hd₁, h₁, hs₁⟩ := textBefore_alongside h (by decide) hraw
  refine ⟨.text raw d.pos, d₁, m₁, ?_, rfl, h₁, ?_⟩
  · rw [text, hd₁]
    exact if_neg hnone
  · have hy : y ∉ ['<'] := by
      rintro hy
      rw [List.mem_singleton.mp hy] at htag
      exact htag (List.prefix_append ['<'] m)
    have htakes := textBefore_takes h.left hy hraw
    rw [h₁.left] at htakes
    exact suffix_of_append htakes

theorem suffix_tail {y : Char} {s : List Char} (h : y :: s <:+ m) : s <:+ m.tail := by
  obtain ⟨u, rfl⟩ := h
  cases u with
  | nil => exact List.suffix_rfl
  | cons z u => exact (List.suffix_cons y s).trans (List.suffix_append u _)

theorem attr_alongside (h : Alongside x m c d) : SameToken x m c.attr d.attr := by
  intro token c' hc
  obtain ⟨⟨name, c₁⟩, hname, hc⟩ := bind_eq_ok hc
  obtain ⟨c₂, heq, hc⟩ := bind_eq_ok hc
  obtain ⟨d₁, m₁, hd₁, h₁, hs₁⟩ := qname_alongside h hname
  obtain ⟨d₂, m₂, hd₂, h₂, hm₂⟩ := expect_alongside (spaces_alongside h₁) (by decide) heq
  have h₃ := spaces_alongside h₂
  have hs₃ : m₂.dropWhile isSpace <:+ m₂ := List.dropWhile_suffix _
  generalize m₂.dropWhile isSpace = m₃ at h₃ hs₃
  cases m₃ with
  | nil =>
    have hrest : c₂.spaces.rest = '<' :: endTagRest := h₃.left
    simp only [hrest] at hc
    exact absurd (by decide) (guard_eq_ok hc).1
  | cons quote m₃ =>
    have hrest : c₂.spaces.rest = quote :: (m₃ ++ endTag) := h₃.left
    have hrest' : d₂.spaces.rest = quote :: (m₃ ++ '<' :: x) := h₃.right
    simp only [hrest] at hc
    obtain ⟨hquote, hc⟩ := guard_eq_ok hc
    obtain ⟨⟨value, c₄⟩, hvalue, hc⟩ := bind_eq_ok hc
    obtain ⟨c₅, hend, hc⟩ := bind_eq_ok hc
    cases hc
    have hne : quote ≠ '<' := by
      rintro rfl
      exact hquote (by decide)
    have h₄ : Alongside x m₃ (c₂.spaces.skip 1) (d₂.spaces.skip 1) := skip_alongside h₃ (n := 1) (by simp)
    obtain ⟨d₅, m₅, hd₅, h₅, hs₅⟩ := textBefore_alongside h₄ (by simp) hvalue
    obtain ⟨d₆, m₆, hd₆, h₆, hm₆⟩ := expect_alongside h₅ hne hend
    refine ⟨.attr name value d.pos (d₂.spaces.skip 1).pos, d₆, m₆, ?_, rfl, h₆, ?_⟩
    · simp only [attr, hd₁, hd₂, hrest', if_neg hquote, hd₅, hd₆, bind, Except.bind]
      rfl
    · have hs₂ : '=' :: m₂ <:+ m := hm₂ ▸ (List.dropWhile_suffix _).trans hs₁
      have hs₆ : m₆ <:+ m₃ := (hm₆ ▸ List.suffix_cons quote m₆).trans hs₅
      exact ((hs₆.trans (List.suffix_cons quote m₃)).trans hs₃).trans (suffix_tail hs₂)

end Cursor

end Galley.Markup
