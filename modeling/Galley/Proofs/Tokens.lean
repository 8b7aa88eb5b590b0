import Galley.Proofs.Splice

/-! Reading token by token. What a token may be and where it leads depends on the place alone. -/

namespace Galley.Markup

theorem not_prefix {part xs : List Char} (h : ∀ t, ¬ xs = part ++ t) : ¬ part <+: xs := by
  rintro ⟨t, ht⟩
  exact h t ht.symm

theorem not_cons_prefix {y : Char} {xs : List Char} (h : ∀ t, ¬ xs = y :: t) (part : List Char) :
    ¬ y :: part <+: xs :=
  not_prefix fun t => h (part ++ t)

theorem nextInContent_eq (depth : Nat) (c : Cursor) : nextInContent depth c =
    let stay (found : Token × Cursor) := some (found.1, Place.content depth, found.2)
    if ['<', '!', '-', '-'] <+: c.rest then do return stay (← c.comment)
    else if ['<', '!', '[', 'C', 'D', 'A', 'T', 'A', '['] <+: c.rest then do return stay (← c.verbatim)
    else if ['<', '!'] <+: c.rest then throw (.unknownToken c.pos)
    else if ['<', '?'] <+: c.rest then do return stay (← c.instruction)
    else if ['<', '/'] <+: c.rest then do
      let (token, c') ← c.closeTag
      return some (token, .closed depth, c')
    else if c.rest = ['<'] then throw (.unknownToken c.pos)
    else if ['<'] <+: c.rest then do
      let (token, c') ← c.tagName
      return some (token, .tag (depth + 1), c')
    else if c.rest = [] then return none
    else do return stay (← c.text) := by
  obtain ⟨pos, rest⟩ := c
  simp only [nextInContent]
  split
  case h_4 tail hcomment hverbatim =>
    have h₁ : ¬ ['-', '-'] <+: tail := not_prefix hcomment
    have h₂ : ¬ ['[', 'C', 'D', 'A', 'T', 'A', '['] <+: tail := not_prefix hverbatim
    simp [h₁, h₂]
  case h_8 tail hbang hquestion hslash hempty =>
    have h₁ := not_cons_prefix hbang
    have h₂ := not_cons_prefix hquestion
    have h₃ := not_cons_prefix hslash
    simp_all
  case h_9 hempty htag =>
    have h₁ := not_cons_prefix htag
    simp_all
  all_goals simp_all

theorem nextInTag_eq {depth : Nat} {c : Cursor} {y : Char} {ys : List Char} (h : c.spaces.rest = y :: ys) :
    nextInTag depth c =
      if y = '/' then do return some (.tagEnd true, .closed depth, ← (c.spaces.skip 1).expect '>')
      else if y = '>' then return some (.tagEnd false, .content depth, c.spaces.skip 1)
      else if (!isSpace (c.rest.headD y)) = true then throw (.expectedSpace y c.spaces.pos)
      else do
        let (token, c') ← c.spaces.attr
        return some (token, .tag depth, c') := by
  simp only [nextInTag, h]
  split
  case h_4 hslash hend =>
    simp_all
    split <;> rfl
  all_goals simp_all

theorem nextAfterRoot_eq (c : Cursor) : nextAfterRoot c =
    let stay (found : Token × Cursor) := some (found.1, Place.afterRoot, found.2)
    if ['<', '!', '-', '-'] <+: c.spaces.rest then do return stay (← c.spaces.comment)
    else if ['<', '?'] <+: c.spaces.rest then do return stay (← c.spaces.instruction)
    else if c.spaces.rest = [] then return none
    else throw (.unknownToken c.spaces.pos) := by
  simp only [nextAfterRoot]
  split
  case h_4 hempty hcomment hinstruction =>
    have h₁ : ¬ ['<', '!', '-', '-'] <+: c.spaces.rest := not_prefix hcomment
    have h₂ : ¬ ['<', '?'] <+: c.spaces.rest := not_prefix hinstruction
    simp_all
  all_goals simp_all

/-- The place with `n` more elements around. -/
def Place.under (n : Nat) : Place → Place
  | .tag depth => .tag (depth + n)
  | .content depth => .content (depth + n)
  | .afterRoot => .closed n

theorem Place.closed_under (n depth : Nat) : (closed depth).under n = closed (depth + n) := by
  cases depth with
  | zero => rw [Nat.zero_add, closed, under]
  | succ depth => rw [Nat.add_right_comm, closed, under, closed]

/-- As `SameToken`, with the place a token leads to, which on the right is inside `n` more elements. -/
def SameNext (x m : List Char) (n : Nat) (left right : Except Fault (Option (Token × Place × Cursor))) :
    Prop :=
  ∀ found, left = .ok found → ∃ token token' place c' d' m', found = some (token, place, c') ∧
    right = .ok (some (token', place.under n, d')) ∧ token'.bare = token.bare ∧
    Alongside x m' c' d' ∧ m' <:+ m.tail

section alongside

variable {x m m' : List Char} {n : Nat} {c d : Cursor}

theorem SameToken.next {left right : Except Fault (Token × Cursor)} (h : SameToken x m left right)
    (place : Place) :
    SameNext x m n (left >>= fun found => pure (some (found.1, place, found.2)))
      (right >>= fun found => pure (some (found.1, place.under n, found.2))) := by
  intro found hc
  obtain ⟨⟨token, c'⟩, htoken, hc⟩ := bind_eq_ok hc
  cases hc
  obtain ⟨token', d', m', hd, hbare, h', hs⟩ := h token c' htoken
  refine ⟨token, token', place, c', d', m', rfl, ?_, hbare, h', hs⟩
  rw [hd]
  rfl

theorem SameNext.of_suffix {left right : Except Fault (Option (Token × Place × Cursor))}
    (h : SameNext x m n left right) (hs : m <:+ m') : SameNext x m' n left right := by
  intro found hc
  obtain ⟨token, token', place, c', d', m₁, hfound, hd, hbare, h', hm₁⟩ := h found hc
  refine ⟨token, token', place, c', d', m₁, hfound, hd, hbare, h', hm₁.trans ?_⟩
  cases m with
  | nil => exact List.nil_suffix
  | cons y m => exact Cursor.suffix_tail hs

theorem SameNext.of_error {fault : Fault} {right : Except Fault (Option (Token × Place × Cursor))} :
    SameNext x m n (.error fault) right := by
  intro found hc
  cases hc

theorem prefix_append_stop {part : List Char} (h : '<' ∉ part) (hm : m ≠ []) (s : List Char) :
    '<' :: part <+: m ++ '<' :: s ↔ '<' :: part <+: m := by
  obtain ⟨y, m, rfl⟩ := List.exists_cons_of_ne_nil hm
  rw [List.cons_append, List.cons_prefix_cons, List.cons_prefix_cons, ← List.isPrefixOf_iff_prefix,
    isPrefixOf_append_stop h, List.isPrefixOf_iff_prefix]

theorem prefix_left (h : Alongside x m c d) (hm : m ≠ []) {part : List Char} (hpart : '<' ∉ part) :
    '<' :: part <+: c.rest ↔ '<' :: part <+: m := by
  rw [h.left, endTag_eq, prefix_append_stop hpart hm]

theorem prefix_right (h : Alongside x m c d) (hm : m ≠ []) {part : List Char} (hpart : '<' ∉ part) :
    '<' :: part <+: d.rest ↔ '<' :: part <+: m := by
  rw [h.right, prefix_append_stop hpart hm]

theorem nextInContent_alongside (h : Alongside x m c d) (hm : m ≠ []) (depth : Nat) :
    SameNext x m n (nextInContent depth c) (nextInContent (depth + n) d) := by
  have hleft (part : List Char) (hpart : '<' ∉ part) := prefix_left h hm hpart
  have hright (part : List Char) (hpart : '<' ∉ part) := prefix_right h hm hpart
  simp only [nextInContent_eq, hleft ['!', '-', '-'] (by decide), hright ['!', '-', '-'] (by decide),
    hleft ['!', '[', 'C', 'D', 'A', 'T', 'A', '['] (by decide),
    hright ['!', '[', 'C', 'D', 'A', 'T', 'A', '['] (by decide), hleft ['!'] (by decide),
    hright ['!'] (by decide), hleft ['?'] (by decide), hright ['?'] (by decide), hleft ['/'] (by decide),
    hright ['/'] (by decide), hleft [] (by decide), hright [] (by decide)]
  by_cases hcomment : ['<', '!', '-', '-'] <+: m
  · rw [if_pos hcomment, if_pos hcomment]
    exact (Cursor.comment_alongside h hcomment.length_le).next _
  rw [if_neg hcomment, if_neg hcomment]
  by_cases hverbatim : ['<', '!', '[', 'C', 'D', 'A', 'T', 'A', '['] <+: m
  · rw [if_pos hverbatim, if_pos hverbatim]
    exact (Cursor.verbatim_alongside h hverbatim.length_le).next _
  rw [if_neg hverbatim, if_neg hverbatim]
  by_cases hbang : ['<', '!'] <+: m
  · rw [if_pos hbang]
    exact SameNext.of_error
  rw [if_neg hbang, if_neg hbang]
  by_cases hinstruction : ['<', '?'] <+: m
  · rw [if_pos hinstruction, if_pos hinstruction]
    exact (Cursor.instruction_alongside h hinstruction.length_le).next _
  rw [if_neg hinstruction, if_neg hinstruction]
  by_cases hclose : ['<', '/'] <+: m
  · rw [if_pos hclose, if_pos hclose]
    rw [← Place.closed_under]
    exact (Cursor.closeTag_alongside h hclose.length_le).next _
  rw [if_neg hclose, if_neg hclose]
  have hlong : ∀ s, m ++ '<' :: s ≠ ['<'] ∧ m ++ '<' :: s ≠ [] := by
    intro s
    obtain ⟨y, m, rfl⟩ := List.exists_cons_of_ne_nil hm
    simp
  have hc := hlong endTagRest
  rw [← endTag_eq, ← h.left] at hc
  have hd := hlong x
  rw [← h.right] at hd
  rw [if_neg hc.1, if_neg hd.1]
  by_cases hopen : ['<'] <+: m
  · rw [if_pos hopen, if_pos hopen]
    rw [Nat.add_right_comm]
    exact (Cursor.tagName_alongside h hopen.length_le).next _
  · rw [if_neg hopen, if_neg hopen, if_neg hc.2, if_neg hd.2]
    exact (Cursor.text_alongside h hm hopen).next _

theorem headD_alongside (h : Alongside x m c d) (y : Char) : d.rest.headD y = c.rest.headD y := by
  rw [h.left, h.right, endTag_eq]
  cases m <;> rfl

theorem nextInTag_alongside (h : Alongside x m c d) (depth : Nat) :
    SameNext x m n (nextInTag depth c) (nextInTag (depth + n) d) := by
  have h₁ := Cursor.spaces_alongside h
  have hs : m.dropWhile isSpace <:+ m := List.dropWhile_suffix _
  generalize m.dropWhile isSpace = m₁ at h₁ hs
  obtain ⟨y, ys, zs, hc, hd, hlength⟩ : ∃ y ys zs, c.spaces.rest = y :: ys ∧ d.spaces.rest = y :: zs ∧
      (y ≠ '<' → 1 ≤ m₁.length) := by
    rw [h₁.left, h₁.right, endTag_eq]
    cases m₁ with
    | nil => exact ⟨'<', endTagRest, x, rfl, rfl, fun hy => absurd rfl hy⟩
    | cons y m₁ => exact ⟨y, _, _, rfl, rfl, fun _ => by simp⟩
  rw [nextInTag_eq hc, nextInTag_eq hd]
  refine SameNext.of_suffix ?_ hs
  by_cases hslash : y = '/'
  · rw [if_pos hslash, if_pos hslash]
    intro found hfound
    obtain ⟨c₂, hexpect, hfound⟩ := bind_eq_ok hfound
    cases hfound
    have h₂ := Cursor.skip_alongside h₁ (hlength (by rw [hslash]; decide))
    obtain ⟨d₃, m₃, hd₃, h₃, hm₃⟩ := Cursor.expect_alongside h₂ (by decide) hexpect
    refine ⟨.tagEnd true, .tagEnd true, .closed depth, c₂, d₃, m₃, rfl, ?_, rfl, h₃, ?_⟩
    · rw [hd₃, Place.closed_under]
      rfl
    · rw [← List.drop_one, hm₃]
      exact List.suffix_cons '>' m₃
  rw [if_neg hslash, if_neg hslash]
  by_cases hend : y = '>'
  · rw [if_pos hend, if_pos hend]
    intro found hfound
    cases hfound
    have h₂ := Cursor.skip_alongside h₁ (hlength (by rw [hend]; decide))
    have hs₂ := Cursor.drop_suffix_tail 0 m₁
    exact ⟨.tagEnd false, .tagEnd false, .content depth, _, _, _, rfl, rfl, rfl, h₂, hs₂⟩
  rw [if_neg hend, if_neg hend, headD_alongside h]
  by_cases hspace : (!isSpace (c.rest.headD y)) = true
  · rw [if_pos hspace]
    exact SameNext.of_error
  · rw [if_neg hspace, if_neg hspace]
    exact (Cursor.attr_alongside h₁).next _

theorem nextAfterRoot_alongside (h : Alongside x m c d) :
    SameNext x m 0 (nextAfterRoot c) (nextAfterRoot d) := by
  have h₁ := Cursor.spaces_alongside h
  have hs : m.dropWhile isSpace <:+ m := List.dropWhile_suffix _
  generalize m.dropWhile isSpace = m₁ at h₁ hs
  rw [nextAfterRoot_eq, nextAfterRoot_eq]
  cases m₁ with
  | nil =>
    have hrest : c.spaces.rest = endTag := h₁.left
    have hcomment : ¬ ['<', '!', '-', '-'] <+: endTag := by decide
    have hinstruction : ¬ ['<', '?'] <+: endTag := by decide
    have hsome : endTag ≠ [] := by decide
    rw [hrest, if_neg hcomment, if_neg hinstruction, if_neg hsome]
    exact SameNext.of_error
  | cons y m₁ =>
    refine SameNext.of_suffix ?_ hs
    have hm : y :: m₁ ≠ [] := List.cons_ne_nil y m₁
    have hleft (part : List Char) (hpart : '<' ∉ part) := prefix_left h₁ hm hpart
    have hright (part : List Char) (hpart : '<' ∉ part) := prefix_right h₁ hm hpart
    simp only [hleft ['!', '-', '-'] (by decide), hright ['!', '-', '-'] (by decide), hleft ['?'] (by decide),
      hright ['?'] (by decide)]
    by_cases hcomment : ['<', '!', '-', '-'] <+: y :: m₁
    · rw [if_pos hcomment, if_pos hcomment]
      exact (Cursor.comment_alongside h₁ hcomment.length_le).next _
    rw [if_neg hcomment, if_neg hcomment]
    by_cases hinstruction : ['<', '?'] <+: y :: m₁
    · rw [if_pos hinstruction, if_pos hinstruction]
      exact (Cursor.instruction_alongside h₁ hinstruction.length_le).next _
    have hsome : c.spaces.rest ≠ [] := by
      rw [h₁.left]
      exact List.cons_ne_nil y _
    rw [if_neg hinstruction, if_neg hsome]
    exact SameNext.of_error

theorem next_alongside (h : Alongside x m c d) (hm : m ≠ []) {place : Place} (hplace : place ≠ .afterRoot)
    (n : Nat) : SameNext x m n (next place c) (next (place.under n) d) := by
  cases place with
  | tag depth => exact nextInTag_alongside h depth
  | content depth => exact nextInContent_alongside h hm depth
  | afterRoot => exact absurd rfl hplace

end alongside

/-- What a token may be at a place, and the place it leads to. -/
inductive Moves : Place → Token → Place → Prop where
  | attr {depth : Nat} (name : QName) (value : List Char) (pos valuePos : Position) :
      Moves (.tag depth) (.attr name value pos valuePos) (.tag depth)
  | emptyTag {depth : Nat} : Moves (.tag depth) (.tagEnd true) (.closed depth)
  | startTag {depth : Nat} : Moves (.tag depth) (.tagEnd false) (.content depth)
  | tagName {depth : Nat} (name : QName) (pos : Position) :
      Moves (.content depth) (.tagName name pos) (.tag (depth + 1))
  | closeTag {depth : Nat} (name : QName) (pos : Position) :
      Moves (.content depth) (.closeTag name pos) (.closed depth)
  | text {depth : Nat} (raw : List Char) (pos : Position) :
      Moves (.content depth) (.text raw pos) (.content depth)
  | verbatim {depth : Nat} (content : List Char) : Moves (.content depth) (.verbatim content) (.content depth)
  | aside {depth : Nat} : Moves (.content depth) .aside (.content depth)
  | asideAfterRoot : Moves .afterRoot .aside .afterRoot

section moves

variable {c c' : Cursor} {token : Token} {place place' : Place}

theorem Cursor.comment_token (hc : c.comment = .ok (token, c')) : token = .aside := by
  obtain ⟨_, _, hc⟩ := bind_eq_ok hc
  obtain ⟨_, hc⟩ := guard_eq_ok hc
  cases hc
  rfl

theorem Cursor.instruction_token (hc : c.instruction = .ok (token, c')) : token = .aside := by
  rw [instruction] at hc
  obtain ⟨_, hc⟩ := guard_eq_ok hc
  obtain ⟨_, _, hc⟩ := bind_eq_ok hc
  obtain ⟨_, _, hc⟩ := bind_eq_ok hc
  cases hc
  rfl

theorem Cursor.attr_token (hc : c.attr = .ok (token, c')) :
    ∃ name value pos valuePos, token = .attr name value pos valuePos := by
  obtain ⟨⟨name, c₁⟩, _, hc⟩ := bind_eq_ok hc
  obtain ⟨c₂, _, hc⟩ := bind_eq_ok hc
  cases hrest : c₂.spaces.rest with
  | nil =>
    simp only [hrest] at hc
    cases hc
  | cons quote ys =>
    simp only [hrest] at hc
    obtain ⟨_, hc⟩ := guard_eq_ok hc
    obtain ⟨⟨value, _⟩, _, hc⟩ := bind_eq_ok hc
    obtain ⟨_, _, hc⟩ := bind_eq_ok hc
    cases hc
    exact ⟨name, value, _, _, rfl⟩

theorem nextInContent_moves {depth : Nat} (hc : nextInContent depth c = .ok (some (token, place', c'))) :
    Moves (.content depth) token place' := by
  rw [nextInContent_eq] at hc
  dsimp only at hc
  split_ifs at hc
  · obtain ⟨⟨_, _⟩, htoken, hc⟩ := bind_eq_ok hc
    cases hc
    rw [Cursor.comment_token htoken]
    exact .aside
  · obtain ⟨⟨_, _⟩, htoken, hc⟩ := bind_eq_ok hc
    obtain ⟨⟨content, _⟩, _, htoken⟩ := bind_eq_ok htoken
    cases hc
    cases htoken
    exact .verbatim content
  · obtain ⟨⟨_, _⟩, htoken, hc⟩ := bind_eq_ok hc
    cases hc
    rw [Cursor.instruction_token htoken]
    exact .aside
  · obtain ⟨⟨_, _⟩, htoken, hc⟩ := bind_eq_ok hc
    obtain ⟨⟨name, _⟩, _, htoken⟩ := bind_eq_ok htoken
    obtain ⟨_, _, htoken⟩ := bind_eq_ok htoken
    cases hc
    cases htoken
    exact .closeTag name c.pos
  · obtain ⟨⟨_, _⟩, htoken, hc⟩ := bind_eq_ok hc
    obtain ⟨⟨name, _⟩, _, htoken⟩ := bind_eq_ok htoken
    cases hc
    cases htoken
    exact .tagName name (c.skip 1).pos
  · cases hc
  · obtain ⟨⟨_, _⟩, htoken, hc⟩ := bind_eq_ok hc
    obtain ⟨⟨raw, _⟩, _, htoken⟩ := bind_eq_ok htoken
    obtain ⟨_, htoken⟩ := guard_eq_ok htoken
    cases hc
    cases htoken
    exact .text raw c.pos

theorem nextInTag_moves {depth : Nat} (hc : nextInTag depth c = .ok (some (token, place', c'))) :
    Moves (.tag depth) token place' := by
  cases hrest : c.spaces.rest with
  | nil =>
    rw [nextInTag, hrest] at hc
    cases hc
  | cons y ys =>
    rw [nextInTag_eq hrest] at hc
    split_ifs at hc
    · obtain ⟨_, _, hc⟩ := bind_eq_ok hc
      cases hc
      exact .emptyTag
    · cases hc
      exact .startTag
    · obtain ⟨⟨_, _⟩, htoken, hc⟩ := bind_eq_ok hc
      cases hc
      obtain ⟨name, value, pos, valuePos, rfl⟩ := Cursor.attr_token htoken
      exact .attr name value pos valuePos

theorem nextAfterRoot_moves (hc : nextAfterRoot c = .ok (some (token, place', c'))) :
    Moves .afterRoot token place' := by
  rw [nextAfterRoot_eq] at hc
  dsimp only at hc
  split_ifs at hc
  · obtain ⟨⟨_, _⟩, htoken, hc⟩ := bind_eq_ok hc
    cases hc
    rw [Cursor.comment_token htoken]
    exact .asideAfterRoot
  · obtain ⟨⟨_, _⟩, htoken, hc⟩ := bind_eq_ok hc
    cases hc
    rw [Cursor.instruction_token htoken]
    exact .asideAfterRoot
  · cases hc

theorem next_moves (hc : next place c = .ok (some (token, place', c'))) : Moves place token place' := by
  cases place with
  | tag depth => exact nextInTag_moves hc
  | content depth => exact nextInContent_moves hc
  | afterRoot => exact nextAfterRoot_moves hc

end moves

end Galley.Markup
