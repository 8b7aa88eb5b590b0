import Galley.Text.Blank

/-! Words as the non-empty parts of a text cut at white space. -/

namespace Galley.Text

def parts (text : String) : List String :=
  ((text.toList.splitOnP isBlank).filter (· ≠ [])).map String.ofList

theorem wordsFrom_nil (word : List Char) :
    wordsFrom word [] = [word.reverse].filter (· ≠ []) := by
  cases word <;> simp [wordsFrom]

theorem wordsFrom_blank {c : Char} (hc : isBlank c = true) (word cs : List Char) :
    wordsFrom word (c :: cs) = [word.reverse].filter (· ≠ []) ++ wordsFrom [] cs := by
  cases word <;> simp [wordsFrom, hc]

theorem wordsFrom_letter {c : Char} (hc : isBlank c = false) (word cs : List Char) :
    wordsFrom word (c :: cs) = wordsFrom (c :: word) cs := by
  cases word <;> simp [wordsFrom, hc]

theorem wordsFrom_eq_split (word cs : List Char) :
    wordsFrom word cs = (List.splitOnPPrepend isBlank cs word).filter (· ≠ []) := by
  induction cs generalizing word with
  | nil => rw [wordsFrom_nil, List.splitOnPPrepend_nil]
  | cons c cs ih =>
    cases hc : isBlank c with
    | true =>
      rw [wordsFrom_blank hc, List.splitOnPPrepend_cons_pos hc, ih, List.splitOnPPrepend_nil_right,
        ← List.filter_append, List.singleton_append]
    | false => rw [wordsFrom_letter hc, List.splitOnPPrepend_cons_neg hc, ih]

theorem words_eq_parts (text : String) : words text = parts text := by
  rw [words, parts, wordsFrom_eq_split, List.splitOnPPrepend_nil_right]

theorem not_blank_of_mem_split {cs read word : List Char} (hr : ∀ c ∈ read, isBlank c = false)
    (h : word ∈ List.splitOnPPrepend isBlank cs read) : ∀ c ∈ word, isBlank c = false := by
  induction cs generalizing read with
  | nil =>
    have he : word = read.reverse := by simpa using h
    simpa [he] using hr
  | cons x xs ih =>
    cases hx : isBlank x with
    | true =>
      rw [List.splitOnPPrepend_cons_pos hx] at h
      rcases List.mem_cons.mp h with he | h
      · simpa [he] using hr
      · exact ih (by simp) h
    | false =>
      rw [List.splitOnPPrepend_cons_neg hx] at h
      exact ih (by simpa [hx] using hr) h

theorem mem_parts {text word : String} (h : word ∈ parts text) :
    word ≠ "" ∧ ∀ c ∈ word.toList, isBlank c = false := by
  obtain ⟨cs, hcs, rfl⟩ := List.mem_map.mp h
  obtain ⟨hs, hne⟩ := List.mem_filter.mp hcs
  constructor
  · intro he
    have hh : cs = [] := by simpa using congrArg String.toList he
    simp [hh] at hne
  · simpa using not_blank_of_mem_split (by simp) hs

end Galley.Text
