import Mathlib
import Galley.Proofs.Registrar
import Galley.Proofs.Remembering

/-! Widths in the order they were remembered in. What a cache holds are the last inserts that took effect, as
many as there is room for, and an insert has at most one text forgotten, the oldest. -/

namespace Galley

namespace WidthCache

variable {c c' : WidthCache} {text oldest : String} {width : Length} {n : Nat} {done : List (String × Length)}

/-- The cache with one more text, before there is room for it. -/
def push (c : WidthCache) (text : String) (width : Length) : WidthCache :=
  { c with widths := c.widths.insert text width, back := text :: c.back }

def forget (c : WidthCache) (text : String) : WidthCache := { c with widths := c.widths.erase text }

inductive Ending where
  | room
  | noTextLeft

/-- A run of the loop that makes room, with the texts it forgets and why it ends. It has no bound of its own. -/
inductive Evicts : WidthCache → List String → Ending → WidthCache → Prop where
  | room {c : WidthCache} (h : c.widths.size ≤ c.capacity) : Evicts c [] .room c
  | noTextLeft {c : WidthCache} (h : c.capacity < c.widths.size) (hp : c.popOldest? = none) :
      Evicts c [] .noTextLeft c
  | forget {c rest c' : WidthCache} {oldest : String} {forgotten : List String} {ending : Ending}
      (h : c.capacity < c.widths.size) (hp : c.popOldest? = some (oldest, rest))
      (hr : Evicts (rest.forget oldest) forgotten ending c') : Evicts c (oldest :: forgotten) ending c'

/-- Inserts one after the other. -/
def insertAll (c : WidthCache) (inserts : List (String × Length)) : WidthCache :=
  inserts.foldl (fun c entry => c.insert entry.1 entry.2) c

/-- The inserts that take effect, each as its text is not known at that moment. -/
def effective : WidthCache → List (String × Length) → List (String × Length)
  | _, [] => []
  | c, entry :: inserts =>
    let later := effective (c.insert entry.1 entry.2) inserts
    if c.get? entry.1 = none then entry :: later else later

/-- The inserts that took effect and the next one, unless its text is one of the last of them. This asks no cache. -/
def accept (capacity : Nat) (done : List (String × Length)) (entry : String × Length) : List (String × Length) :=
  if entry.1 ∈ (done.rtake capacity).map Prod.fst then done else done ++ [entry]

theorem popOldest?_eq_none : c.popOldest? = none ↔ c.order = [] := by
  rw [popOldest?, order]
  cases c.front with
  | cons text front => simp
  | nil => cases hb : c.back.reverse <;> simp

theorem Evicts.unique {forgotten forgotten' : List String} {ending ending' : Ending} {c'' : WidthCache}
    (h : c.Evicts forgotten ending c') (h' : c.Evicts forgotten' ending' c'') :
    forgotten' = forgotten ∧ ending' = ending ∧ c'' = c' := by
  induction h generalizing forgotten' with
  | room hroom =>
    cases h' with
    | room => exact ⟨rfl, rfl, rfl⟩
    | noTextLeft hfull => omega
    | forget hfull => omega
  | noTextLeft hfull hp =>
    cases h' with
    | room hroom => omega
    | noTextLeft => exact ⟨rfl, rfl, rfl⟩
    | forget _ hp' =>
      rw [hp] at hp'
      cases hp'
  | forget hfull hp _ ih =>
    cases h' with
    | room hroom => omega
    | noTextLeft _ hp' =>
      rw [hp] at hp'
      cases hp'
    | forget _ hp' hr' =>
      rw [hp] at hp'
      cases hp'
      obtain ⟨rfl, rfl, rfl⟩ := ih hr'
      exact ⟨rfl, rfl, rfl⟩

/-- With a turn for each text of the queue the loop comes to its end. -/
theorem evicts_evict (h : c.order.length ≤ n) : ∃ forgotten ending, c.Evicts forgotten ending (c.evict n) := by
  induction n generalizing c with
  | zero =>
    -- The queue is empty, so the loop ends here too, whether or not there is room.
    have hp : c.popOldest? = none := popOldest?_eq_none.mpr (List.length_eq_zero_iff.mp (Nat.le_zero.mp h))
    by_cases hroom : c.widths.size ≤ c.capacity
    · exact ⟨[], .room, .room hroom⟩
    · exact ⟨[], .noTextLeft, .noTextLeft (Nat.lt_of_not_le hroom) hp⟩
  | succ n ih =>
    rw [evict]
    by_cases hroom : c.widths.size ≤ c.capacity
    · rw [if_pos hroom]
      exact ⟨[], .room, .room hroom⟩
    rw [if_neg hroom]
    have hfull := Nat.lt_of_not_le hroom
    cases hp : c.popOldest? with
    | none => exact ⟨[], .noTextLeft, .noTextLeft hfull hp⟩
    | some popped =>
      obtain ⟨oldest, rest⟩ := popped
      have hshorter : (rest.forget oldest).order.length ≤ n := by
        rw [(popOldest?_eq_some hp).1, List.length_cons] at h
        exact Nat.le_of_succ_le_succ h
      obtain ⟨forgotten, ending, hr⟩ := ih hshorter
      exact ⟨oldest :: forgotten, ending, .forget hfull hp hr⟩

theorem get?_eq_none : c.get? text = none ↔ text ∉ c.widths := by
  rw [get?, Std.HashMap.mem_iff_isSome_getElem?]
  cases c.widths[text]? <;> simp

theorem insert_of_known (h : c.get? text ≠ none) (width : Length) : c.insert text width = c := by
  rw [ne_eq, get?_eq_none, not_not] at h
  exact if_pos (Std.HashMap.mem_iff_contains.mp h)

theorem insert_of_unknown (h : c.get? text = none) (width : Length) :
    c.insert text width = (c.push text width).evict (c.push text width).order.length := by
  rw [get?_eq_none, Std.HashMap.mem_iff_contains] at h
  exact if_neg h

theorem order_push (c : WidthCache) (text : String) (width : Length) :
    (c.push text width).order = c.order ++ [text] := by
  rw [order, order, push, List.reverse_cons, List.append_assoc]

theorem get?_push (c : WidthCache) (text : String) (width : Length) (known : String) :
    (c.push text width).get? known = if text = known then some width else c.get? known := by
  rw [push, get?, Std.HashMap.getElem?_insert]
  simp only [beq_iff_eq]
  rfl

theorem get?_forget_of_ne (h : oldest ≠ text) : (c.forget oldest).get? text = c.get? text := by
  rw [forget, get?, Std.HashMap.getElem?_erase, if_neg (by rwa [beq_iff_eq])]
  rfl

/-- The cache holds the last `n` of the inserts that took effect. -/
structure HoldsNewest (c : WidthCache) (n : Nat) (done : List (String × Length)) : Prop where
  ordered : c.order = (done.rtake n).map Prod.fst
  distinct : c.order.Nodup
  listed : ∀ text, text ∈ c.widths ↔ text ∈ c.order
  latest : ∀ text ∈ c.order, c.get? text = done.reverse.lookup text
  counted : c.widths.size = min n done.length

namespace HoldsNewest

theorem empty (capacity : Nat) : ({ capacity } : WidthCache).HoldsNewest capacity [] where
  ordered := by
    rw [List.rtake_nil]
    rfl
  distinct := List.nodup_nil
  listed _ := iff_of_false Std.HashMap.not_mem_empty List.not_mem_nil
  latest _ h := absurd h List.not_mem_nil
  counted := by
    rw [List.length_nil, Nat.min_zero]
    exact Std.HashMap.size_empty

theorem get?_eq_none (h : c.HoldsNewest n done) : c.get? text = none ↔ text ∉ (done.rtake n).map Prod.fst := by
  rw [WidthCache.get?_eq_none, h.listed, h.ordered]

theorem accept_eq (h : c.HoldsNewest n done) (entry : String × Length) :
    accept n done entry = if c.get? entry.1 = none then done ++ [entry] else done := by
  simp only [accept, h.get?_eq_none, ite_not]

theorem push (h : c.HoldsNewest n done) (hnew : c.get? text = none) (width : Length) :
    (c.push text width).HoldsNewest (n + 1) (done ++ [(text, width)]) := by
  rw [WidthCache.get?_eq_none] at hnew
  refine ⟨?_, ?_, fun known => ?_, fun known hknown => ?_, ?_⟩
  · rw [order_push, h.ordered, List.rtake_concat_succ, List.map_append]
    rfl
  · rw [order_push, List.nodup_append_comm]
    exact List.nodup_cons.mpr ⟨fun hold => hnew ((h.listed text).mpr hold), h.distinct⟩
  · rw [order_push, WidthCache.push, Std.HashMap.mem_insert, h.listed, beq_iff_eq, List.mem_append,
      List.mem_singleton, or_comm, eq_comm]
  · rw [get?_push, List.reverse_append, List.reverse_singleton, List.singleton_append, lookup_newest]
    by_cases hn : text = known
    · rw [if_pos hn, if_pos hn]
    · rw [order_push, List.mem_append, List.mem_singleton] at hknown
      rw [if_neg hn, if_neg hn, h.latest known (hknown.resolve_right (Ne.symm hn))]
  · rw [WidthCache.push, Std.HashMap.size_insert, if_neg hnew, h.counted, List.length_append,
      List.length_singleton, Nat.add_min_add_right]

/-- If fewer have taken effect, the cache holds all of them. -/
theorem of_length_le (h : c.HoldsNewest (n + 1) done) (hfew : done.length ≤ n) : c.HoldsNewest n done where
  ordered := by
    rw [h.ordered, List.rtake, List.rtake, Nat.sub_eq_zero_of_le hfew, Nat.sub_eq_zero_of_le (by omega)]
  distinct := h.distinct
  listed := h.listed
  latest := h.latest
  counted := by rw [h.counted, Nat.min_eq_right hfew, Nat.min_eq_right (by omega)]

theorem forget {rest : WidthCache} (h : c.HoldsNewest (n + 1) done) (hmany : n < done.length)
    (hp : c.popOldest? = some (oldest, rest)) : (rest.forget oldest).HoldsNewest n done := by
  obtain ⟨horder, hwidths, -⟩ := popOldest?_eq_some hp
  have hdistinct := h.distinct
  rw [horder, List.nodup_cons] at hdistinct
  -- The text that goes is not in the queue a second time, so the map and the queue lose the same one.
  have hother {text : String} (ht : text ∈ rest.order) : oldest ≠ text := by
    rintro rfl
    exact hdistinct.1 ht
  refine ⟨?_, hdistinct.2, fun text => ?_, fun text ht => ?_, ?_⟩
  · have htail : rest.order = c.order.tail := by rw [horder, List.tail_cons]
    change rest.order = _
    rw [htail, h.ordered, ← List.map_tail, List.rtake, List.tail_drop, List.rtake]
    congr 2
    omega
  · change text ∈ rest.widths.erase oldest ↔ text ∈ rest.order
    rw [Std.HashMap.mem_erase, hwidths, h.listed, horder, List.mem_cons, beq_eq_false_iff_ne]
    constructor
    · rintro ⟨hne, ht⟩
      exact ht.resolve_left hne.symm
    · intro ht
      exact ⟨hother ht, .inr ht⟩
  · have hget : rest.get? text = c.get? text := by rw [get?, get?, hwidths]
    rw [get?_forget_of_ne (hother ht), hget]
    exact h.latest text (by rw [horder]; exact List.mem_cons_of_mem _ ht)
  · have hold : oldest ∈ c.widths := (h.listed oldest).mpr (by rw [horder]; exact List.mem_cons_self)
    rw [WidthCache.forget, hwidths, Std.HashMap.size_erase, if_pos hold, h.counted]
    omega

/-- One text too many: the loop forgets the oldest, if there is no room, and then there is room. -/
theorem makes_room (h : c.HoldsNewest (c.capacity + 1) done) : ∃ forgotten c', forgotten.length ≤ 1 ∧
    c.Evicts forgotten .room c' ∧ c'.capacity = c.capacity ∧ c'.HoldsNewest c.capacity done := by
  by_cases hfew : done.length ≤ c.capacity
  · have hroom := h.of_length_le hfew
    refine ⟨[], c, Nat.zero_le 1, .room ?_, rfl, hroom⟩
    rw [hroom.counted]
    exact Nat.min_le_left _ _
  have hmany := Nat.lt_of_not_le hfew
  have hfull : c.capacity < c.widths.size := by
    rw [h.counted]
    omega
  cases hp : c.popOldest? with
  | none =>
    have hnone := popOldest?_eq_none.mp hp
    rw [h.ordered, List.map_eq_nil_iff, List.rtake, List.drop_eq_nil_iff] at hnone
    omega
  | some popped =>
    obtain ⟨oldest, rest⟩ := popped
    have hleft := h.forget hmany hp
    have hcapacity : (rest.forget oldest).capacity = c.capacity := (popOldest?_eq_some hp).2.2
    refine ⟨[oldest], rest.forget oldest, Nat.le_refl 1, .forget hfull hp (.room ?_), hcapacity, hleft⟩
    rw [hleft.counted, hcapacity]
    exact Nat.min_le_left _ _

theorem insert_new (h : c.HoldsNewest n done) (hn : c.capacity = n) (hnew : c.get? text = none) (width : Length) :
    (∃ forgotten, forgotten.length ≤ 1 ∧ (c.push text width).Evicts forgotten .room (c.insert text width)) ∧
    (c.insert text width).capacity = n ∧ (c.insert text width).HoldsNewest n (done ++ [(text, width)]) := by
  subst hn
  obtain ⟨forgotten, c', hone, hroom, hcapacity, hlast⟩ := (h.push hnew width).makes_room
  obtain ⟨_, _, hevict⟩ := evicts_evict (Nat.le_refl (c.push text width).order.length)
  obtain ⟨-, -, hsame⟩ := hroom.unique hevict
  rw [insert_of_unknown hnew, hsame]
  exact ⟨⟨forgotten, hone, hroom⟩, hcapacity, hlast⟩

/-- What the cache holds after an insert can be told from the inserts alone. -/
theorem insert (h : c.HoldsNewest n done) (hn : c.capacity = n) (entry : String × Length) :
    (c.insert entry.1 entry.2).capacity = n ∧
    (c.insert entry.1 entry.2).HoldsNewest n (accept n done entry) := by
  rw [h.accept_eq]
  by_cases hnew : c.get? entry.1 = none
  · rw [if_pos hnew]
    exact (h.insert_new hn hnew entry.2).2
  · rw [if_neg hnew, insert_of_known hnew]
    exact ⟨hn, h⟩

theorem insertAll (h : c.HoldsNewest n done) (hn : c.capacity = n) (inserts : List (String × Length)) :
    (c.insertAll inserts).capacity = n ∧
    (c.insertAll inserts).HoldsNewest n (inserts.foldl (accept n) done) := by
  induction inserts generalizing c done with
  | nil => exact ⟨hn, h⟩
  | cons entry inserts ih =>
    obtain ⟨hcapacity, hnext⟩ := h.insert hn entry
    exact ih hnext hcapacity

theorem append_effective (h : c.HoldsNewest n done) (hn : c.capacity = n) (inserts : List (String × Length)) :
    done ++ c.effective inserts = inserts.foldl (accept n) done := by
  induction inserts generalizing c done with
  | nil => exact List.append_nil done
  | cons entry inserts ih =>
    obtain ⟨hcapacity, hnext⟩ := h.insert hn entry
    rw [effective, List.foldl_cons, ← ih hnext hcapacity, h.accept_eq]
    by_cases hnew : c.get? entry.1 = none
    · rw [if_pos hnew, if_pos hnew, List.append_assoc, List.singleton_append]
    · rw [if_neg hnew, if_neg hnew]

theorem only_run (h : c.HoldsNewest n done) (hn : c.capacity = n) (hnew : c.get? text = none) (width : Length) :
    ∃ forgotten, forgotten.length ≤ 1 ∧
      ∀ forgotten' ending c', (c.push text width).Evicts forgotten' ending c' ↔
        forgotten' = forgotten ∧ ending = .room ∧ c' = c.insert text width := by
  obtain ⟨⟨forgotten, hone, hroom⟩, -⟩ := h.insert_new hn hnew width
  refine ⟨forgotten, hone, fun forgotten' ending c' => ⟨hroom.unique, ?_⟩⟩
  rintro ⟨rfl, rfl, rfl⟩
  exact hroom

end HoldsNewest

/-- The queue of a cache lists what the map holds: the texts of the last inserts that took effect, oldest first
and each once, with the widths that came with them. To make room for another one the loop has a single run, in
which it forgets no more than one text and does not run out of texts. -/
theorem insertAll_keeps_newest (capacity : Nat) (inserts : List (String × Length)) :
    let c := ({ capacity } : WidthCache).insertAll inserts
    let done := ({ capacity } : WidthCache).effective inserts
    c.HoldsNewest capacity done ∧ c.capacity = capacity ∧ c.widths.size ≤ capacity ∧
    done = inserts.foldl (accept capacity) [] ∧
    (∀ text width, c.get? text ≠ none → c.insert text width = c) ∧
    ∀ text width, c.get? text = none → ∃ forgotten, forgotten.length ≤ 1 ∧
      ∀ forgotten' ending c', (c.push text width).Evicts forgotten' ending c' ↔
        forgotten' = forgotten ∧ ending = .room ∧ c' = c.insert text width := by
  intro c done
  have hempty := HoldsNewest.empty capacity
  have hdone : done = inserts.foldl (accept capacity) [] := hempty.append_effective rfl inserts
  obtain ⟨hcapacity, hholds⟩ := hempty.insertAll rfl inserts
  rw [← hdone] at hholds
  have hbound : c.widths.size ≤ capacity := by
    rw [hholds.counted]
    exact Nat.min_le_left _ _
  exact ⟨hholds, hcapacity, hbound, hdone, fun _ width hold => insert_of_known hold width,
    fun _ width hnew => hholds.only_run hcapacity hnew width⟩

/-- A text that was inserted again while it was known, and once more when it had been forgotten. -/
def revisits : List (String × Length) :=
  [("a", .ofPoints 1), ("b", .ofPoints 2), ("a", .ofPoints 3), ("c", .ofPoints 4), ("a", .ofPoints 5)]

theorem insertAll_keeps_newest_revisited :
    let c := ({ capacity := 2 } : WidthCache).insertAll revisits
    c.order = ["c", "a"] ∧ c.get? "a" = some (.ofPoints 5) ∧ c.get? "b" = none ∧
    ∃ forgotten, forgotten.length ≤ 1 ∧
      (c.push "b" (.ofPoints 6)).Evicts forgotten .room (c.insert "b" (.ofPoints 6)) := by
  intro c
  obtain ⟨hholds, -, -, hdone, -, hruns⟩ := insertAll_keeps_newest 2 revisits
  have hlast : revisits.foldl (accept 2) [] =
      [("a", .ofPoints 1), ("b", .ofPoints 2), ("c", .ofPoints 4), ("a", .ofPoints 5)] := by rfl
  rw [hdone, hlast] at hholds
  have horder : c.order = ["c", "a"] := hholds.ordered
  have ha : "a" ∈ c.order := by
    rw [horder]
    decide
  have hb : c.get? "b" = none := hholds.get?_eq_none.mpr (by decide)
  obtain ⟨forgotten, hone, hrun⟩ := hruns "b" (.ofPoints 6) hb
  exact ⟨horder, hholds.latest "a" ha, hb, forgotten, hone, (hrun _ _ _).mpr ⟨rfl, rfl, rfl⟩⟩

end WidthCache

end Galley
