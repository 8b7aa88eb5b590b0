import Mathlib
import Galley.Proofs.Containment
import Galley.Proofs.Depiction

/-! Filling lines. A line takes every item that still fits, and so no other way to cut the items into lines
needs fewer: while any other cut fills one line, at most one line is ended here. -/

namespace Galley

namespace Reference

/-- Every item that is not the first of the line ends within the column. -/
def Fits (maxWidth : Length) (line : List Item) : Prop :=
  ∀ left i right, line = left ++ i :: right → left ≠ [] → penAfter left + i.size.width ≤ maxWidth

structure Cut (maxWidth : Length) (items : List Item) (ls : List (List Item)) : Prop where
  whole : ls.flatten = items
  filled : ∀ l ∈ ls, l ≠ []
  fits : ∀ l ∈ ls, Fits maxWidth l

def itemGroups (pieces : List Piece) : List (List Item) := (groups pieces).map Group.items

/-- A cut of a stream is one of each of its groups, so there is a cut at every break. -/
def CutAtBreaks (maxWidth : Length) (pieces : List Piece) (ls : List (List Item)) : Prop :=
  ∃ parts, List.Forall₂ (Cut maxWidth) (itemGroups pieces) parts ∧ parts.flatten = ls

variable {maxWidth wide : Length} {line before items : List Item} {i : Item}

theorem itemGroups_flatten (pieces : List Piece) :
    (itemGroups pieces).flatten = pieces.filterMap Piece.item? := by
  induction pieces with
  | nil => rfl
  | cons piece rest ih =>
    cases piece with
    | lineBreak spacing => exact ih
    | item i =>
      obtain ⟨g, more, he⟩ := List.exists_cons_of_ne_nil (groups_ne_nil rest)
      rw [itemGroups, he] at ih
      rw [itemGroups, groups_item he i]
      exact congrArg (i :: ·) ih

theorem penAfter_behind (h : ∀ i ∈ before, i.Forward) (items : List Item) :
    penAfter items ≤ penAfter (before ++ items) := by
  induction items using List.reverseRecOn with
  | nil =>
    rw [List.append_nil]
    exact penAfter_nonneg h
  | append_singleton items i ih =>
    rw [← List.append_assoc, penAfter_append, penAfter_append]
    exact Length.add_le_add ih le_rfl

theorem Fits.mono (h : Fits maxWidth line) (hw : maxWidth ≤ wide) : Fits wide line :=
  fun left i right he hl => (h left i right he hl).trans hw

theorem Cut.mono {ls : List (List Item)} (h : Cut maxWidth items ls) (hw : maxWidth ≤ wide) :
    Cut wide items ls :=
  ⟨h.whole, h.filled, fun l hl => (h.fits l hl).mono hw⟩

theorem fits_nil (maxWidth : Length) : Fits maxWidth [] := by
  intro left i right he
  simp at he

theorem fits_singleton (maxWidth : Length) (i : Item) : Fits maxWidth [i] := by
  intro left j right he hl
  have hlen := congrArg List.length he
  have hpos := List.length_pos_iff.mpr hl
  simp only [List.length_append, List.length_cons, List.length_nil] at hlen
  omega

theorem Fits.append_singleton (h : Fits maxWidth line)
    (hi : line ≠ [] → penAfter line + i.size.width ≤ maxWidth) : Fits maxWidth (line ++ [i]) := by
  intro left j right he hl
  cases right using List.reverseRecOn with
  | nil =>
    obtain ⟨hline, hj⟩ := List.append_inj' he rfl
    obtain rfl := List.singleton_inj.mp hj
    subst hline
    exact hi hl
  | append_singleton right r =>
    rw [← List.cons_append, ← List.append_assoc] at he
    obtain ⟨hline, _⟩ := List.append_inj' he rfl
    exact h left j right hline hl

theorem Fits.of_append (h : Fits maxWidth (before ++ items)) (hf : ∀ i ∈ before, i.Forward) :
    Fits maxWidth items := by
  intro left i right he hl
  have hwhole : before ++ items = (before ++ left) ++ i :: right := by rw [he, List.append_assoc]
  have hle := h (before ++ left) i right hwhole (by simp [hl])
  exact (Length.add_le_add (penAfter_behind hf left) le_rfl).trans hle

theorem wrap_of_overflow (hl : line ≠ []) (ho : maxWidth < penAfter line + i.size.width) :
    wrap maxWidth line (i :: items) = line :: wrap maxWidth [i] items := by
  simp [wrap, hl, ho]

theorem wrap_of_fit (ho : line ≠ [] → penAfter line + i.size.width ≤ maxWidth) :
    wrap maxWidth line (i :: items) = wrap maxWidth (line ++ [i]) items := by
  cases line with
  | nil => simp [wrap]
  | cons j line =>
    have hle := ho (List.cons_ne_nil j line)
    simp [wrap, hle]

theorem wrap_cut (h : Fits maxWidth line) (items : List Item) :
    Cut maxWidth (line ++ items) (wrap maxWidth line items) := by
  induction items generalizing line with
  | nil =>
    cases line with
    | nil => exact ⟨rfl, by simp [wrap], by simp [wrap]⟩
    | cons j line => exact ⟨by simp [wrap], by simp [wrap], by simpa [wrap] using h⟩
  | cons i items ih =>
    by_cases ho : line ≠ [] ∧ maxWidth < penAfter line + i.size.width
    · have hrest := ih (fits_singleton maxWidth i)
      rw [wrap_of_overflow ho.1 ho.2]
      refine ⟨?_, List.forall_mem_cons.mpr ⟨ho.1, hrest.filled⟩, List.forall_mem_cons.mpr ⟨h, hrest.fits⟩⟩
      rw [List.flatten_cons, hrest.whole, List.singleton_append]
    · have hfit : line ≠ [] → penAfter line + i.size.width ≤ maxWidth :=
        fun hl => not_lt.mp fun hlt => ho ⟨hl, hlt⟩
      have hrest := ih (h.append_singleton hfit)
      rw [wrap_of_fit hfit]
      rwa [List.append_assoc, List.singleton_append] at hrest

theorem wrap_append_of_fits (hl : line ≠ []) {taken : List Item} (h : Fits maxWidth (line ++ taken)) :
    wrap maxWidth line (taken ++ items) = wrap maxWidth (line ++ taken) items := by
  induction taken generalizing line with
  | nil => rw [List.nil_append, List.append_nil]
  | cons i taken ih =>
    have hi : penAfter line + i.size.width ≤ maxWidth := h line i taken rfl hl
    have hline : line ++ i :: taken = line ++ [i] ++ taken := by simp
    rw [hline] at h
    rw [List.cons_append, wrap_of_fit fun _ => hi, ih (by simp) h, hline]

/-- Either all of some items join the open line, or the line ends before one of them. -/
theorem wrap_append (hl : line ≠ []) (taken items : List Item) :
    wrap maxWidth line (taken ++ items) = wrap maxWidth (line ++ taken) items ∨
    ∃ left i right, taken = left ++ i :: right ∧
      wrap maxWidth line (taken ++ items) = (line ++ left) :: wrap maxWidth [i] (right ++ items) := by
  induction taken generalizing line with
  | nil =>
    left
    rw [List.nil_append, List.append_nil]
  | cons i taken ih =>
    by_cases ho : maxWidth < penAfter line + i.size.width
    · right
      exact ⟨[], i, taken, rfl, by rw [List.cons_append, wrap_of_overflow hl ho, List.append_nil]⟩
    · have hstep : wrap maxWidth line (i :: taken ++ items) = wrap maxWidth (line ++ [i]) (taken ++ items) :=
        wrap_of_fit fun _ => not_lt.mp ho
      rw [hstep]
      rcases ih (show line ++ [i] ≠ [] by simp) with h | ⟨left, j, right, ht, h⟩
      · left
        rw [h, List.append_assoc, List.singleton_append]
      · right
        refine ⟨i :: left, j, right, by rw [ht, List.cons_append], ?_⟩
        rw [h, List.append_assoc, List.singleton_append]

/-- Each further line of another cut costs at most one line here. -/
theorem length_wrap_flatten_le (hl : line ≠ []) {ls : List (List Item)} (hfits : ∀ l ∈ ls, Fits maxWidth l)
    (hf : ∀ i ∈ ls.flatten, i.Forward) : (wrap maxWidth line ls.flatten).length ≤ ls.length + 1 := by
  induction ls generalizing line with
  | nil => simp [wrap, hl]
  | cons l ls ih =>
    obtain ⟨hfl, hfls⟩ := List.forall_mem_cons.mp hfits
    rw [List.flatten_cons] at hf
    obtain ⟨hforward, hrest⟩ := List.forall_mem_append.mp hf
    rw [List.flatten_cons, List.length_cons]
    rcases wrap_append hl l ls.flatten with h | ⟨left, i, right, ht, h⟩
    · have hle := ih (show line ++ l ≠ [] by simp [hl]) hfls hrest
      rw [h]
      omega
    · -- The rest of the other line fits behind the item that begins a line here.
      have hright : Fits maxWidth ([i] ++ right) := by
        rw [ht] at hfl
        exact hfl.of_append fun j hj => hforward j (by simp [ht, hj])
      have hle := ih (show [i] ++ right ≠ [] by simp) hfls hrest
      rw [h, List.length_cons, wrap_append_of_fits (by simp) hright]
      omega

theorem Cut.length_wrap_le {ls : List (List Item)} (h : Cut maxWidth items ls) (hf : ∀ i ∈ items, i.Forward) :
    (wrap maxWidth [] items).length ≤ ls.length := by
  have hwhole := h.whole
  subst hwhole
  cases ls with
  | nil => simp [wrap]
  | cons l ls =>
    obtain ⟨hl, _⟩ := List.forall_mem_cons.mp h.filled
    obtain ⟨hfl, hfls⟩ := List.forall_mem_cons.mp h.fits
    obtain ⟨i, l, rfl⟩ := List.exists_cons_of_ne_nil hl
    have hrest : ∀ j ∈ ls.flatten, j.Forward := fun j hj => hf j (by simp [List.mem_append.mpr (.inr hj)])
    have hstart : wrap maxWidth [] (i :: (l ++ ls.flatten)) = wrap maxWidth [i] (l ++ ls.flatten) :=
      wrap_of_fit fun hn => absurd rfl hn
    rw [List.flatten_cons, List.cons_append, hstart, wrap_append_of_fits (by simp) hfl]
    exact length_wrap_flatten_le (by simp) hfls hrest

theorem length_wraps_le {gs : List (List Item)} {parts : List (List (List Item))}
    (h : List.Forall₂ (Cut maxWidth) gs parts) (hf : ∀ i ∈ gs.flatten, i.Forward) :
    (gs.map (wrap maxWidth [])).flatten.length ≤ parts.flatten.length := by
  induction h with
  | nil => exact le_rfl
  | cons hcut _ ih =>
    obtain ⟨hhead, hrest⟩ := List.forall_mem_append.mp hf
    have hle := hcut.length_wrap_le hhead
    have hle' := ih hrest
    simp only [List.map_cons, List.flatten_cons, List.length_append]
    omega

theorem wraps_cut (maxWidth : Length) (pieces : List Piece) :
    CutAtBreaks maxWidth pieces ((itemGroups pieces).map (wrap maxWidth [])).flatten := by
  refine ⟨_, ?_, rfl⟩
  rw [List.forall₂_map_right_iff, List.forall₂_same]
  intro items _
  exact wrap_cut (fits_nil maxWidth) items

def Row.line? : Row → Option (List Item)
  | .line items => some items
  | .blank _ => none

theorem lines_items (top : Length) (rs : List Row) :
    (lines top rs).map Line.items = (rs.filterMap Row.line?).map (placed []) := by
  induction rs generalizing top with
  | nil => rfl
  | cons row rs ih =>
    rw [lines, List.map_append, ih]
    cases row <;> rfl

theorem rows_lines (maxWidth : Length) (pieces : List Piece) :
    (rows maxWidth pieces).filterMap Row.line? = ((itemGroups pieces).map (wrap maxWidth [])).flatten := by
  have hgroup : ∀ g : Group, (g.rows maxWidth).filterMap Row.line? = wrap maxWidth [] g.items := by
    intro g
    obtain ⟨items, spacing⟩ := g
    cases items with
    | nil => cases spacing <;> rfl
    | cons i items =>
      simp only [Group.rows, List.isEmpty_cons, Bool.false_eq_true, if_false, List.filterMap_map]
      exact List.filterMap_some
  rw [rows, List.filterMap_flatMap, itemGroups, List.map_map, List.flatMap_def]
  exact congrArg List.flatten (List.map_congr_left fun g _ => hgroup g)

theorem lineHeight_of_same {height : Length} (hl : line ≠ []) (h : ∀ i ∈ line, i.size.height = height) :
    lineHeight line = max 0 height := by
  obtain ⟨i, rest, rfl⟩ := List.exists_cons_of_ne_nil hl
  apply le_antisymm
  · refine Length.foldl_max_le.mpr ⟨le_max_left _ _, ?_⟩
    intro l hm
    obtain ⟨j, hj, rfl⟩ := List.mem_map.mp hm
    exact (h j hj).le.trans (le_max_right _ _)
  · have hi := height_le_lineHeight (List.mem_cons_self (a := i) (l := rest))
    rw [h i List.mem_cons_self] at hi
    exact max_le (lineHeight_nonneg _) hi

theorem bottom_lines_le {ls ls' : List (List Item)} {height top top' : Length}
    (hlen : ls.length ≤ ls'.length) (h : ∀ l ∈ ls, lineHeight l = height)
    (h' : ∀ l ∈ ls', lineHeight l = height) (ht : top ≤ top') (hs : top'.Snapped) :
    bottom top (ls.map .line) ≤ bottom top' (ls'.map .line) := by
  induction ls generalizing ls' top top' with
  | nil =>
    refine ht.trans (le_bottom (fun r hr => ?_) hs)
    obtain ⟨l, _, rfl⟩ := List.mem_map.mp hr
    exact lineHeight_nonneg l
  | cons l ls ih =>
    cases ls' with
    | nil => simp at hlen
    | cons l' ls' =>
      obtain ⟨hl, hls⟩ := List.forall_mem_cons.mp h
      obtain ⟨hl', hls'⟩ := List.forall_mem_cons.mp h'
      have htop : top + lineHeight l ≤ top' + lineHeight l' := by
        rw [hl, hl']
        exact Length.add_le_add ht le_rfl
      have hrest : bottom (top + lineHeight l) (ls.map .line) ≤ bottom (top' + lineHeight l') (ls'.map .line) :=
        ih (by simpa using hlen) hls hls' htop (Length.snapped_add _ _)
      exact hrest

/-- Where all items have one height a wider column is no higher, group by group. -/
theorem bottom_groups_le {height : Length} (hw : maxWidth ≤ wide) {gs : List Group} {top top' : Length}
    (hf : ∀ g ∈ gs, ∀ i ∈ g.items, i.Forward) (h : ∀ g ∈ gs, ∀ i ∈ g.items, i.size.height = height)
    (ht : top ≤ top') (hs : top'.Snapped) :
    bottom top (gs.flatMap (Group.rows wide)) ≤ bottom top' (gs.flatMap (Group.rows maxWidth)) := by
  induction gs generalizing top top' with
  | nil => exact ht
  | cons g gs ih =>
    obtain ⟨hfg, hfgs⟩ := List.forall_mem_cons.mp hf
    obtain ⟨hg, hgs⟩ := List.forall_mem_cons.mp h
    rw [List.flatMap_cons, List.flatMap_cons, bottom_append, bottom_append]
    refine ih hfgs hgs ?_ (snapped_bottom hs)
    obtain ⟨items, spacing⟩ := g
    cases items with
    | nil =>
      cases spacing with
      | none => exact ht
      | some spacing => exact Length.add_le_add ht le_rfl
    | cons i items =>
      have hcut := fun w => wrap_cut (fits_nil w) (i :: items)
      have hlen := ((hcut maxWidth).mono hw).length_wrap_le hfg
      have hheight : ∀ w, ∀ l ∈ wrap w [] (i :: items), lineHeight l = max 0 height := by
        intro w l hl
        refine lineHeight_of_same ((hcut w).filled l hl) fun j hj => hg j ?_
        have hj' := List.mem_flatten.mpr ⟨l, hl, hj⟩
        rwa [(hcut w).whole] at hj'
      exact bottom_lines_le hlen (hheight wide) (hheight maxWidth) ht hs

end Reference

namespace Compiler

open Reference

variable {c : Compiler} {nodes : List Markup.Node} {maxWidth : Length} {k : Column}

theorem layout_line_items (h : c.layout nodes maxWidth = .ok k) : k.lines.map Line.items =
    ((itemGroups (c.stream nodes)).map (wrap maxWidth [])).flatten.map (placed []) := by
  rw [layout_lines h, lines_items, rows_lines]

theorem mem_itemGroups {pieces : List Piece} {i : Item} :
    i ∈ (itemGroups pieces).flatten ↔ .item i ∈ pieces := by
  rw [itemGroups_flatten, List.mem_filterMap]
  constructor
  · rintro ⟨piece, hp, hi⟩
    cases piece with
    | item j => exact Option.some.inj hi ▸ hp
    | lineBreak spacing => cases hi
  · intro hp
    exact ⟨.item i, hp, rfl⟩

/-- A layout has the fewest lines into which its items can be cut, and so no more of them in a wider column,
where it is no higher either unless its elements differ in height. No sum of lengths has to be exact. -/
theorem layout_fewest_lines (h : c.layout nodes maxWidth = .ok k)
    (hf : ∀ i, .item i ∈ c.stream nodes → i.Forward) :
    (∃ ls, CutAtBreaks maxWidth (c.stream nodes) ls ∧ k.lines.map Line.items = ls.map (placed [])) ∧
    IsLeast {n | ∃ ls, CutAtBreaks maxWidth (c.stream nodes) ls ∧ ls.length = n} k.lines.length ∧
    ∀ wide k', maxWidth ≤ wide → c.layout nodes wide = .ok k' → k'.lines.length ≤ k.lines.length ∧
      ∀ height, (∀ e ∈ k.elements, e.size.height = height) → k'.size.height ≤ k.size.height := by
  let pieces := c.stream nodes
  have hcount : ∀ {w : Length} {k : Column}, c.layout nodes w = .ok k →
      k.lines.length = ((itemGroups pieces).map (wrap w [])).flatten.length := by
    intro w k h
    have hl := congrArg List.length (layout_line_items h)
    rwa [List.length_map, List.length_map] at hl
  have hleast : ∀ {w : Length} {k : Column}, c.layout nodes w = .ok k →
      ∀ ls, CutAtBreaks w pieces ls → k.lines.length ≤ ls.length := by
    rintro w k h ls ⟨parts, hparts, rfl⟩
    rw [hcount h]
    exact length_wraps_le hparts fun i hi => hf i (mem_itemGroups.mp hi)
  have hcut := wraps_cut maxWidth pieces
  refine ⟨⟨_, hcut, layout_line_items h⟩, ⟨⟨_, hcut, (hcount h).symm⟩, ?_⟩, fun wide k' hw h' => ⟨?_, ?_⟩⟩
  · rintro n ⟨ls, hls, rfl⟩
    exact hleast h ls hls
  · obtain ⟨parts, hparts, hflat⟩ := hcut
    have hwider : CutAtBreaks wide pieces _ := ⟨parts, hparts.imp fun _ _ hc => hc.mono hw, hflat⟩
    rw [hcount h]
    exact hleast h' _ hwider
  · intro height hheight
    have hitems : ∀ i, .item i ∈ pieces → i.size.height = height := by
      intro i hi
      have hm : i.content ∈ k.elements.map Element.content := by
        rw [layout_content h]
        exact List.mem_map_of_mem (List.mem_filterMap.mpr ⟨.item i, hi, rfl⟩)
      obtain ⟨e, he, hc⟩ := List.mem_map.mp hm
      rw [← hheight e he]
      exact congrArg (fun content => content.2.height) hc.symm
    have hgroups : ∀ g ∈ groups pieces, ∀ i ∈ g.items, .item i ∈ pieces := by
      intro g hg i hi
      exact mem_itemGroups.mp (List.mem_flatten.mpr ⟨_, List.mem_map_of_mem hg, hi⟩)
    rw [layout_size h, layout_size h']
    exact bottom_groups_le hw (fun g hg i hi => hf i (hgroups g hg i hi))
      (fun g hg i hi => hitems i (hgroups g hg i hi)) le_rfl Length.snapped_zero

theorem layout_fewest_lines_wrapped : ∃ k, monospaced.layout wrappedNodes (.ofPoints 30) = .ok k ∧
    (∀ i, .item i ∈ monospaced.stream wrappedNodes → i.Forward) ∧
    IsLeast {n | ∃ ls, CutAtBreaks (.ofPoints 30) (monospaced.stream wrappedNodes) ls ∧ ls.length = n} 3 := by
  obtain ⟨k, hk, hcount⟩ := wrapped_on_three_lines
  have hforward : ∀ i, .item i ∈ monospaced.stream wrappedNodes → i.Forward := by
    intro i hi
    have hi' : i.Nonneg := monospaced_nonneg.stream wrappedNodes _ hi
    exact hi'.forward
  have hleast := (layout_fewest_lines hk hforward).2.1
  rw [hcount] at hleast
  exact ⟨k, hk, hforward, hleast⟩

end Compiler

end Galley
