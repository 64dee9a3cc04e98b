import GridCss.Proofs.BracketedText
import GridCss.Proofs.TextWords

/-!
# Words with brackets

A word that may hold blanks in brackets falls into several words if all blanks count. Here blanks
are no brackets. In a text where all brackets are closed, some of the latter words fill up a number
of the former exactly if all brackets are closed behind them.
-/

namespace GridCss.Brackets

open Text

variable {b : Brackets}

theorem words_eq_flatMap_words (b : Brackets) (s : String) :
    Text.words s = (b.words s).flatMap Text.words := by
  have hpieces : Text.words s = (b.pieces isBlank s).flatMap Text.words := by
    rw [pieces, List.flatMap_map, ← String.ofList_toList (s := s), words_ofList,
      splitOnP_eq_flatMap_split b isBlank 0, List.filter_flatMap, List.map_flatMap,
      String.toList_ofList]
    exact List.flatMap_congr fun cs _ => (words_ofList cs).symm
  rw [hpieces, words]
  generalize b.pieces isBlank s = ts
  induction ts with
  | nil => rfl
  | cons t ts ih =>
    rw [List.flatMap_cons, List.filter_cons, ih]
    cases hempty : t.isEmpty with
    | false => simp
    | true =>
      rw [String.isEmpty_iff] at hempty
      rw [hempty]
      rfl

/-- A word that holds blanks in brackets only. -/
structure IsWhole (b : Brackets) (word : String) : Prop where
  ne : word ≠ ""
  closed : b.Closed word.toList
  encloses : b.Encloses isBlank 0 word.toList

namespace IsWhole

variable {word : String}

theorem words_ne_nil (h : b.IsWhole word) : Text.words word ≠ [] := by
  intro hnil
  have hblank : word.toList.filter (! isBlank ·) = [] := by
    rw [← flatMap_toList_words, hnil, List.flatMap_nil]
  cases hchars : word.toList with
  | nil => exact h.ne (String.toList_eq_nil_iff.mp hchars)
  | cons c cs =>
    rw [hchars, List.filter_eq_nil_iff] at hblank
    have hc : isBlank c = true := by simpa using hblank c List.mem_cons_self
    exact h.encloses [] c cs hchars hc rfl

/-- A whole word without brackets is a single one. -/
theorem words_eq_singleton (h : b.IsWhole word)
    (hword : ∀ c ∈ word.toList, b.isBracket c = false) :
    Text.words word = [word] := by
  apply Text.words_eq_singleton h.ne
  intro c hc
  by_contra hblank
  obtain ⟨x, y, hchars⟩ := List.append_of_mem hc
  apply h.encloses x c y hchars (by simpa using hblank)
  apply depthFrom_of_isBracket
  intro a ha
  exact hword a (by simp [hchars, ha])

end IsWhole

variable (hb : ∀ c, isBlank c = true → b.isBracket c = false)
include hb

theorem isWhole_of_mem_words {s word : String} (hs : b.Closed s.toList) (h : word ∈ b.words s) :
    b.IsWhole word := by
  obtain ⟨hpiece, hne⟩ := List.mem_filter.mp h
  obtain ⟨cs, hcs, rfl⟩ := List.mem_map.mp hpiece
  refine ⟨by simpa using hne, ?_, ?_⟩
  · rw [String.toList_ofList]
    exact closed_of_mem_split hb hs hcs
  · rw [String.toList_ofList]
    exact encloses_of_mem_split hcs

/-- Brackets are open or closed whether blanks are left out or not. -/
theorem depthFrom_words (depth : Nat) (s : String) :
    b.depthFrom depth ((Text.words s).flatMap String.toList) = b.depthFrom depth s.toList := by
  rw [flatMap_toList_words]
  apply depthFrom_filter
  intro c hc
  exact hb c (by simpa using hc)

namespace IsWhole

variable {word : String} (h : b.IsWhole word)
include h

/-- Behind the first words of a whole word, but not all, a bracket is open. -/
theorem not_closed {front back : List String} (hwords : Text.words word = front ++ back)
    (hfront : front ≠ []) (hback : back ≠ []) : ¬ b.Closed (front.flatMap String.toList) := by
  rw [← String.ofList_toList (s := word)] at hwords
  obtain ⟨x, c, y, hchars, hc, rfl⟩ := exists_of_words_eq_append hwords hfront hback
  rw [Closed, depthFrom_words hb, String.toList_ofList]
  exact h.encloses x c y hchars hc

theorem closed_words : b.Closed ((Text.words word).flatMap String.toList) := by
  rw [Closed, depthFrom_words hb]
  exact h.closed

theorem getLast_not_blank : ∀ c ∈ word.toList.getLast?, isBlank c = false := by
  intro c hc
  by_contra hblank
  have hblank' : isBlank c = true := by simpa using hblank
  obtain ⟨x, hchars⟩ := List.getLast?_eq_some_iff.mp hc
  have hclosed := h.closed
  rw [hchars, Closed, depthFrom_append, depthFrom_cons, step_of_isBracket (hb c hblank')] at hclosed
  exact h.encloses x c [] hchars hblank' hclosed

/-- If the last word of a whole word has no brackets, it is the only one. -/
theorem eq_of_last {start : List String} {last : String}
    (hwords : Text.words word = start ++ [last])
    (hlast : ∀ c ∈ last.toList, b.isBracket c = false) : start = [] ∧ word = last := by
  have hstart : start = [] := by
    by_contra hne
    apply h.not_closed hb hwords hne (List.cons_ne_nil last [])
    have hclosed := h.closed_words hb
    rw [hwords, List.flatMap_append, List.flatMap_singleton, Closed, depthFrom_append,
      depthFrom_of_isBracket hlast] at hclosed
    exact hclosed
  have hchars : ∀ c ∈ word.toList, b.isBracket c = false := by
    intro c hc
    cases hblank : isBlank c with
    | true => exact hb c hblank
    | false =>
      apply hlast
      have hmem : c ∈ word.toList.filter (! isBlank ·) := by simp [hc, hblank]
      rw [← flatMap_toList_words, hwords, hstart] at hmem
      simpa using hmem
  have hone := h.words_eq_singleton hchars
  rw [hwords, hstart] at hone
  exact ⟨hstart, by simpa using hone.symm⟩

end IsWhole

theorem closed_flatMap_words {wholes : List String} (h : ∀ word ∈ wholes, b.IsWhole word) :
    b.Closed ((wholes.flatMap Text.words).flatMap String.toList) := by
  induction wholes with
  | nil => rfl
  | cons word wholes ih =>
    obtain ⟨hword, hwholes⟩ := List.forall_mem_cons.mp h
    rw [List.flatMap_cons, List.flatMap_append, Closed, depthFrom_append, hword.closed_words hb]
    exact ih hwholes

/-- Words behind which all brackets are closed fill up whole words. -/
theorem exists_append_of_closed {wholes : List String} (h : ∀ word ∈ wholes, b.IsWhole word)
    {front back : List String} (hwords : wholes.flatMap Text.words = front ++ back)
    (hclosed : b.Closed (front.flatMap String.toList)) :
    ∃ before after, wholes = before ++ after ∧ front = before.flatMap Text.words := by
  induction wholes generalizing front with
  | nil =>
    obtain ⟨rfl, -⟩ := List.append_eq_nil_iff.mp hwords.symm
    exact ⟨[], [], rfl, rfl⟩
  | cons word wholes ih =>
    obtain ⟨hword, hwholes⟩ := List.forall_mem_cons.mp h
    rw [List.flatMap_cons] at hwords
    rcases List.append_eq_append_iff.mp hwords with ⟨more, rfl, hmore⟩ | ⟨more, hword', -⟩
    · have hclosed' : b.Closed (more.flatMap String.toList) := by
        rw [List.flatMap_append, Closed, depthFrom_append, hword.closed_words hb] at hclosed
        exact hclosed
      obtain ⟨before, after, rfl, rfl⟩ := ih hwholes hmore hclosed'
      exact ⟨word :: before, after, rfl, rfl⟩
    · by_cases hfront : front = []
      · exact ⟨[], word :: wholes, rfl, hfront⟩
      · by_cases hnil : more = []
        · rw [hnil, List.append_nil] at hword'
          exact ⟨[word], wholes, rfl, by simp [hword']⟩
        · exact absurd hclosed (hword.not_closed hb hword' hfront hnil)

end GridCss.Brackets
