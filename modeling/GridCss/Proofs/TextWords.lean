import GridCss.Proofs.JoinedText

/-!
# Words of a text

A text that is cut at a blank has the words of both parts. From this it follows that the words of
texts joined with blanks are those of the texts, that a list of words can be cut only where the text
can, and what happens to the last word of a text that goes on.
-/

namespace GridCss.Text

theorem words_ofList (cs : List Char) :
    words (String.ofList cs) = ((cs.splitOnP isBlank).filter (! ·.isEmpty)).map String.ofList := by
  rw [words, fields, String.toList_ofList]

/-- Cutting at a blank cuts no word. -/
theorem words_append_blank {c : Char} (hc : isBlank c = true) (x y : List Char) :
    words (String.ofList (x ++ c :: y)) = words (String.ofList x) ++ words (String.ofList y) := by
  rw [words_ofList, List.splitOnP_append_cons x y hc, List.filter_append, List.map_append,
    ← words_ofList, ← words_ofList]

theorem words_eq_singleton {s : String} (hne : s ≠ "") (h : ∀ c ∈ s.toList, isBlank c = false) :
    words s = [s] := by
  have hwords : words (" ".intercalate [s]) = [s] :=
    words_intercalate (List.forall_mem_singleton.mpr ⟨hne, h⟩)
  simpa using hwords

theorem length_words_le_one {s : String} (h : ∀ c ∈ s.toList, isBlank c = false) :
    (words s).length ≤ 1 := by
  by_cases hne : s = ""
  · subst hne
    decide
  · rw [words_eq_singleton hne h, List.length_singleton]

theorem words_intercalate_flatMap (ts : List String) :
    words (" ".intercalate ts) = ts.flatMap words := by
  induction ts with
  | nil => rfl
  | cons t ts ih =>
    cases ts with
    | nil => simp
    | cons u ts =>
      have hjoin : " ".intercalate (t :: u :: ts) =
          String.ofList (t.toList ++ ' ' :: (" ".intercalate (u :: ts)).toList) := by
        rw [← String.toList_inj, String.intercalate_cons_cons]
        simp
      rw [hjoin, words_append_blank (by decide), String.ofList_toList, String.ofList_toList, ih,
        List.flatMap_cons (x := t)]

/-- The pieces hold all characters but the separators. -/
theorem flatten_splitOnP (p : Char → Bool) (cs : List Char) :
    (cs.splitOnP p).flatten = cs.filter (! p ·) := by
  induction cs with
  | nil => rfl
  | cons c cs ih =>
    obtain ⟨first, rest, hsplit⟩ := List.exists_cons_of_ne_nil (List.splitOnP_ne_nil p cs)
    rw [hsplit] at ih
    rw [List.splitOnP_cons_eq_if_modifyHead, hsplit, List.filter_cons, ← ih]
    cases p c <;> simp

theorem flatMap_toList_words (s : String) :
    (words s).flatMap String.toList = s.toList.filter (! isBlank ·) := by
  rw [words, fields, List.flatMap_map, ← flatten_splitOnP]
  simp [List.flatMap_id', List.flatten_filter_not_isEmpty]

/-- Up to the first blank. -/
theorem exists_first_blank (cs : List Char) :
    (∀ c ∈ cs, isBlank c = false) ∨
      ∃ x c y, cs = x ++ c :: y ∧ (∀ a ∈ x, isBlank a = false) ∧ isBlank c = true := by
  cases hfind : cs.find? isBlank with
  | none =>
    left
    simpa using hfind
  | some c =>
    obtain ⟨hc, x, y, rfl, hx⟩ := List.find?_eq_some_iff_append.mp hfind
    exact .inr ⟨x, c, y, rfl, by simpa using hx, hc⟩

/-- Where the list of words is cut, the text can be cut. -/
theorem exists_of_words_eq_append {cs : List Char} {front back : List String}
    (h : words (String.ofList cs) = front ++ back) (hfront : front ≠ []) (hback : back ≠ []) :
    ∃ x c y, cs = x ++ c :: y ∧ isBlank c = true ∧ words (String.ofList x) = front := by
  induction hn : cs.length using Nat.strong_induction_on generalizing cs front with
  | _ n ih =>
  rcases exists_first_blank cs with hcs | ⟨x, c, y, rfl, hx, hc⟩
  · have hle : (words (String.ofList cs)).length ≤ 1 :=
      length_words_le_one (by rwa [String.toList_ofList])
    have hfront' := List.length_pos_iff.mpr hfront
    have hback' := List.length_pos_iff.mpr hback
    rw [h, List.length_append] at hle
    omega
  · have hle : (words (String.ofList x)).length ≤ 1 :=
      length_words_le_one (by rwa [String.toList_ofList])
    rw [words_append_blank hc] at h
    rcases List.append_eq_append_iff.mp h with ⟨more, rfl, hy⟩ | ⟨more, hwords, -⟩
    · by_cases hmore : more = []
      · exact ⟨x, c, y, rfl, hc, by rw [hmore, List.append_nil]⟩
      · have hlt : y.length < n := by
          rw [← hn, List.length_append, List.length_cons]
          omega
        obtain ⟨x', c', y', rfl, hc', hx'⟩ := ih y.length hlt hy hmore rfl
        refine ⟨x ++ c :: x', c', y', by simp, hc', ?_⟩
        rw [words_append_blank hc, hx']
    · -- The words up to the first blank are one at most, so that the cut is at the blank.
      have hmore : more = [] := by
        rw [hwords, List.length_append] at hle
        have hfront' := List.length_pos_iff.mpr hfront
        exact List.length_eq_zero_iff.mp (by omega)
      exact ⟨x, c, y, rfl, hc, by rw [hwords, hmore, List.append_nil]⟩

/-- A text that goes on without a blank at its end goes on in its last word. -/
theorem exists_words_append {cs suffix : List Char} (hne : cs ≠ [])
    (hlast : ∀ c ∈ cs.getLast?, isBlank c = false) (hsuffix : ∀ c ∈ suffix, isBlank c = false) :
    ∃ before word, words (String.ofList cs) = before ++ [word] ∧
      words (String.ofList (cs ++ suffix)) = before ++ [word ++ String.ofList suffix] := by
  induction hn : cs.length using Nat.strong_induction_on generalizing cs with
  | _ n ih =>
  rcases exists_first_blank cs with hcs | ⟨x, c, y, rfl, hx, hc⟩
  · refine ⟨[], String.ofList cs, ?_, ?_⟩
    · exact words_eq_singleton (by simpa using hne) (by rwa [String.toList_ofList])
    · rw [String.ofList_append, List.nil_append]
      apply words_eq_singleton
      · simp [hne]
      · simpa [or_imp, forall_and] using ⟨hcs, hsuffix⟩
  · have hy : y ≠ [] := by
      rintro rfl
      have hblank := hlast c (by simp)
      rw [hc] at hblank
      cases hblank
    have hlast' : ∀ a ∈ y.getLast?, isBlank a = false := by
      intro a ha
      rw [Option.mem_def] at ha
      exact hlast a (by simp [List.getLast?_cons, ha])
    have hlt : y.length < n := by
      rw [← hn, List.length_append, List.length_cons]
      omega
    obtain ⟨before, word, hwords, hmore⟩ := ih y.length hlt hy hlast' rfl
    refine ⟨words (String.ofList x) ++ before, word, ?_, ?_⟩
    · rw [words_append_blank hc, hwords, List.append_assoc]
    · rw [List.append_assoc, List.cons_append, words_append_blank hc, hmore, List.append_assoc]

end GridCss.Text
