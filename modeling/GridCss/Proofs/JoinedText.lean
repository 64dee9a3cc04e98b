import Mathlib.Data.List.DropRight
import GridCss.Text.Split

/-!
# Joined text

Texts that are joined with a separator come apart again where none of them holds the separator. The
same is true of words joined with blanks; and trimmed text stays trimmed where it goes on without
them.
-/

namespace GridCss

namespace Text

theorem pieces_ne_nil (p : Char → Bool) (s : String) : pieces p s ≠ [] := by
  simp [pieces]

/-- Pieces hold no separator, and no character from elsewhere. -/
theorem mem_pieces {p : Char → Bool} {s t : String} (h : t ∈ pieces p s) :
    ∀ c ∈ t.toList, p c = false ∧ c ∈ s.toList := by
  obtain ⟨cs, hcs, rfl⟩ := List.mem_map.mp h
  rw [String.toList_ofList]
  clear h
  generalize s.toList = l at hcs
  induction l generalizing cs with
  | nil =>
    rw [List.splitOnP_nil, List.mem_singleton] at hcs
    simp [hcs]
  | cons a l ih =>
    obtain ⟨first, rest, hsplit⟩ := List.exists_cons_of_ne_nil (List.splitOnP_ne_nil p l)
    rw [hsplit] at ih
    rw [List.splitOnP_cons_eq_if_modifyHead, hsplit] at hcs
    have hih : ∀ cs ∈ first :: rest, ∀ c ∈ cs, p c = false ∧ c ∈ a :: l := fun cs hcs c hc =>
      ⟨(ih cs hcs c hc).1, List.mem_cons_of_mem _ (ih cs hcs c hc).2⟩
    split at hcs
    · rcases List.mem_cons.mp hcs with rfl | hcs
      · exact fun c hc => absurd hc List.not_mem_nil
      · exact hih cs hcs
    · next ha =>
      rcases List.mem_cons.mp hcs with rfl | hcs
      · intro c hc
        rcases List.mem_cons.mp hc with rfl | hc
        · exact ⟨by simpa using ha, List.mem_cons_self⟩
        · exact hih first List.mem_cons_self c hc
      · exact hih cs (List.mem_cons_of_mem _ hcs)

theorem intercalate_ne_empty (separator : String) {lines : List String} (hne : lines ≠ [])
    (h : ∀ line ∈ lines, line ≠ "") : separator.intercalate lines ≠ "" := by
  cases lines with
  | nil => exact absurd rfl hne
  | cons line rest =>
    have hline := h line List.mem_cons_self
    cases rest with
    | nil => simpa using hline
    | cons next rest => simp [hline]

/-- Lists of non-empty lines, each list joined on its own, make the same text. -/
theorem intercalate_flatMap {ι : Type} (separator : String) (lines : ι → List String)
    (h : ∀ x, ∀ line ∈ lines x, line ≠ "") (xs : List ι) :
    separator.intercalate (xs.flatMap lines) =
      separator.intercalate
        ((xs.map fun x => separator.intercalate (lines x)).filter (! ·.isEmpty)) := by
  induction xs with
  | nil => rfl
  | cons x xs ih =>
    by_cases hx : lines x = []
    · simp [hx, ih]
    have hline : (separator.intercalate (lines x)).isEmpty = false := by
      simpa using intercalate_ne_empty separator hx (h x)
    by_cases hrest : xs.flatMap lines = []
    · have hempty :
          (xs.map fun x => separator.intercalate (lines x)).filter (! ·.isEmpty) = [] := by
        rw [List.flatMap_eq_nil_iff] at hrest
        simp only [List.filter_eq_nil_iff, List.forall_mem_map]
        intro y hy
        simp [hrest y hy]
      simp [hrest, hempty, hline]
    · have hfull : (xs.map fun x => separator.intercalate (lines x)).filter (! ·.isEmpty) ≠ [] := by
        intro hempty
        rw [hempty, String.intercalate_nil] at ih
        refine intercalate_ne_empty separator hrest ?_ ih
        intro line hmem
        obtain ⟨y, -, hy⟩ := List.mem_flatMap.mp hmem
        exact h y line hy
      rw [List.flatMap_cons, String.intercalate_append_of_ne_nil hx hrest, ih, List.map_cons,
        List.filter_cons_of_pos (by simp [hline]), String.intercalate_cons_of_ne_nil hfull]

theorem forall_mem_intercalate {p : Char → Bool} {separator : String}
    (hseparator : ∀ c ∈ separator.toList, p c = false) {ts : List String}
    (h : ∀ t ∈ ts, ∀ c ∈ t.toList, p c = false) :
    ∀ c ∈ (separator.intercalate ts).toList, p c = false := by
  induction ts with
  | nil => simp
  | cons t ts ih =>
    rw [List.forall_mem_cons] at h
    cases ts with
    | nil => simpa using h.1
    | cons u ts =>
      simp only [String.intercalate_cons_cons, String.toList_append, List.forall_mem_append]
      exact ⟨⟨h.1, hseparator⟩, ih h.2⟩

/-- Texts that were joined with a separator and a gap behind it come apart again. -/
theorem pieces_intercalate {p : Char → Bool} {separator gap : String} {c : Char}
    (hseparator : separator.toList = c :: gap.toList) (hc : p c = true)
    (hgap : ∀ c ∈ gap.toList, p c = false) {t : String} {ts : List String}
    (h : ∀ u ∈ t :: ts, ∀ c ∈ u.toList, p c = false) :
    pieces p (separator.intercalate (t :: ts)) = t :: ts.map (gap ++ ·) := by
  induction ts generalizing t with
  | nil =>
    rw [List.forall_mem_singleton] at h
    simp [pieces, List.splitOnP_eq_singleton h]
  | cons u ts ih =>
    have hrest : ∀ v ∈ (gap ++ u) :: ts, ∀ c ∈ v.toList, p c = false := by
      simp only [List.forall_mem_cons, String.toList_append, List.forall_mem_append] at h ⊢
      exact ⟨⟨hgap, h.2.1⟩, h.2.2⟩
    have hjoin : (separator.intercalate (t :: u :: ts)).toList =
        t.toList ++ c :: (separator.intercalate ((gap ++ u) :: ts)).toList := by
      rw [String.intercalate_cons_cons, String.intercalate_cons_append]
      simp only [String.toList_append, hseparator, List.append_assoc, List.cons_append]
    rw [List.map_cons, ← ih hrest]
    simp only [pieces, hjoin]
    rw [List.splitOnP_append_cons_of_forall_mem (h t List.mem_cons_self) c hc, List.map_cons,
      String.ofList_toList]

theorem fields_eq_filter (p : Char → Bool) (s : String) :
    fields p s = (pieces p s).filter (! ·.isEmpty) := by
  simp only [fields, pieces, List.filter_map]
  congr 2
  funext cs
  cases cs <;> simp

theorem mem_words {s word : String} (h : word ∈ words s) :
    word ≠ "" ∧ ∀ c ∈ word.toList, isBlank c = false ∧ c ∈ s.toList := by
  rw [words, fields_eq_filter, List.mem_filter] at h
  exact ⟨by simpa using h.2, mem_pieces h.1⟩

/-- Words that were joined with blanks come apart again. -/
theorem words_intercalate {ws : List String}
    (h : ∀ w ∈ ws, w ≠ "" ∧ ∀ c ∈ w.toList, isBlank c = false) :
    words (" ".intercalate ws) = ws := by
  cases ws with
  | nil => rfl
  | cons w ws =>
    have hpieces : pieces isBlank (" ".intercalate (w :: ws)) = w :: ws.map ("" ++ ·) :=
      pieces_intercalate rfl (by decide) (by simp) fun u hu => (h u hu).2
    rw [words, fields_eq_filter, hpieces, List.filter_eq_self.mpr]
    · simp
    · intro u hu
      have hu' : u ∈ w :: ws := by simpa using hu
      simpa using (h u hu').1

/-- A blank in front of a text changes none of its words. -/
theorem words_blank_append (s : String) : words (" " ++ s) = words s := by
  have hblank : isBlank ' ' = true := by decide
  simp [words, fields, List.splitOnP_cons_eq_if_modifyHead, hblank]

theorem mem_trim {s : String} {c : Char} (h : c ∈ (trim s).toList) : c ∈ s.toList := by
  rw [trim, String.toList_ofList] at h
  exact List.dropWhile_subset isBlank ((List.rdropWhile_prefix isBlank _).subset h)

/-- Trimming takes blanks away at both ends and nothing else. -/
theorem exists_trim (s : String) : ∃ front back : List Char,
    s.toList = front ++ ((trim s).toList ++ back) ∧ (∀ c ∈ front, isBlank c) ∧
      ∀ c ∈ back, isBlank c := by
  refine ⟨s.toList.takeWhile isBlank, (s.toList.dropWhile isBlank).rtakeWhile isBlank, ?_,
    List.all_eq_true.mp List.all_takeWhile, fun c => List.mem_rtakeWhile_imp⟩
  have hend : (trim s).toList = (s.toList.dropWhile isBlank).rdropWhile isBlank := by
    rw [trim, String.toList_ofList]
    rfl
  rw [hend, List.rdropWhile_append_rtakeWhile, List.takeWhile_append_dropWhile]

theorem trim_blank_append (s : String) : trim (" " ++ s) = trim s := by
  have hblank : isBlank ' ' = true := by decide
  simp [trim, hblank]

/-- Trimmed text that goes on without blanks has nothing to trim. -/
theorem trim_append (s : String) {t : String} (ht : t ≠ "")
    (h : ∀ c ∈ t.toList, isBlank c = false) : trim (trim s ++ t) = trim s ++ t := by
  have hprefix : (trim s).toList <+: s.toList.dropWhile isBlank := by
    rw [trim, String.toList_ofList]
    exact List.rdropWhile_prefix isBlank _
  have hstart : (trim s ++ t).toList.dropWhile isBlank = (trim s ++ t).toList := by
    rw [String.toList_append]
    cases hm : (trim s).toList with
    | nil =>
      rw [List.nil_append]
      cases ht' : t.toList with
      | nil => rfl
      | cons c rest =>
        rw [ht'] at h
        exact List.dropWhile_cons_of_neg (by simp [h c List.mem_cons_self])
    | cons c rest =>
      rw [hm] at hprefix
      obtain ⟨more, hmore⟩ := hprefix
      have hne : s.toList.dropWhile isBlank ≠ [] := by simp [← hmore]
      have hhead := List.head_dropWhile_not isBlank hne
      simp only [← hmore, List.cons_append, List.head_cons] at hhead
      exact List.dropWhile_cons_of_neg (by simp [hhead])
  have hend : dropEndWhile isBlank (trim s ++ t).toList = (trim s ++ t).toList := by
    refine List.rdropWhile_eq_self_iff.mpr fun hne => ?_
    have htl : t.toList ≠ [] := by simpa using ht
    simp only [String.toList_append, List.getLast_append_of_ne_nil _ htl]
    simp [h _ (List.getLast_mem htl)]
  rw [trim, hstart, hend, String.ofList_toList]

end Text

end GridCss
