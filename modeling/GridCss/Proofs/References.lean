import Mathlib.Data.List.Forall2
import GridCss.Proofs.JoinedText
import GridCss.Style.Rule

/-!
# References to keyframes

The value of `animation-name` is read as a list of names, that of `animation` as a list of layers of
words. Writing such a value for a cell and reading it again gives the same list with the number of
the cell at every name: no name is lost, split or moved.
-/

namespace GridCss

namespace Rule

theorem toList_cellName (name : String) (index : Nat) :
    (cellName name index).toList = name.toList ++ '-' :: Nat.toDigits 10 index := by
  simp [cellName, toString]

theorem number_chars {index : Nat} {c : Char} (h : c ∈ '-' :: Nat.toDigits 10 index) :
    Text.isBlank c = false ∧ isComma c = false := by
  rcases List.mem_cons.mp h with rfl | h
  · decide
  · have hdigit := Nat.isDigit_of_mem_toDigits (by decide) (by decide) h
    have hrange : 48 ≤ c.toNat ∧ c.toNat ≤ 57 := by
      simpa [Char.isDigit, UInt32.le_iff_toNat_le] using hdigit
    constructor
    · simp only [Text.isBlank, Text.blankRanges, List.any_cons, List.any_nil, Bool.or_eq_false_iff,
        Bool.and_eq_false_iff, decide_eq_false_iff_not, and_true]
      omega
    · rw [isComma, beq_eq_false_iff_ne]
      rintro rfl
      exact absurd hrange.1 (by decide)

/-- A name for a cell holds blanks and commas only where the name does. -/
theorem mem_cellName {p : Char → Bool} (hp : p = Text.isBlank ∨ p = isComma) {name : String}
    (h : ∀ c ∈ name.toList, p c = false) (index : Nat) :
    ∀ c ∈ (cellName name index).toList, p c = false := by
  rw [toList_cellName, List.forall_mem_append]
  refine ⟨h, fun c hc => ?_⟩
  rcases hp with rfl | rfl
  · exact (number_chars hc).1
  · exact (number_chars hc).2

theorem trim_cellName (name : String) (index : Nat) :
    Text.trim (cellName (Text.trim name) index) = cellName (Text.trim name) index := by
  have hname : cellName (Text.trim name) index =
      Text.trim name ++ String.ofList ('-' :: Nat.toDigits 10 index) := by
    rw [← String.toList_inj, toList_cellName, String.toList_append, String.toList_ofList]
  rw [hname]
  refine Text.trim_append name (by simp) fun c hc => ?_
  rw [String.toList_ofList] at hc
  exact (number_chars hc).1

/-- The names in a value of `animation-name`. -/
def names (value : String) : List String := (Text.pieces isComma value).map Text.trim

/-- The layers in a value of `animation`, as lists of words. -/
def layers (value : String) : List (List String) := (Text.pieces isComma value).map Text.words

/-- What is joined with commas and read without regard to blanks in front comes out as it was. -/
theorem map_pieces_intercalate {α : Type} {f : String → α} (hf : ∀ s, f (" " ++ s) = f s)
    {ts : List String} (hne : ts ≠ []) (h : ∀ t ∈ ts, ∀ c ∈ t.toList, isComma c = false) :
    (Text.pieces isComma (", ".intercalate ts)).map f = ts.map f := by
  obtain ⟨t, ts, rfl⟩ := List.exists_cons_of_ne_nil hne
  have hpieces : Text.pieces isComma (", ".intercalate (t :: ts)) = t :: ts.map (" " ++ ·) :=
    Text.pieces_intercalate rfl rfl (by simp [isComma]) h
  simp [hpieces, hf]

/-- Written for a cell, every name has the number of the cell. -/
theorem names_renameNames (value : String) (index : Nat) :
    names (renameNames value index) = (names value).map (cellName · index) := by
  rw [names, renameNames, map_pieces_intercalate Text.trim_blank_append]
  · simp [names, trim_cellName]
  · simp [Text.pieces_ne_nil]
  · rw [List.forall_mem_map]
    intro name hname
    exact mem_cellName (.inr rfl) (fun c hc => (Text.mem_pieces hname c (Text.mem_trim hc)).1) index

theorem mem_renameWord {words : List String} {index : Nat} {declared : List String} {w : String}
    (h : w ∈ renameWord words index declared) :
    ∃ word ∈ words, w = word ∨ w = cellName word index := by
  obtain ⟨i, hi⟩ := List.mem_iff_getElem?.mp h
  rw [renameWord, List.getElem?_modify] at hi
  obtain ⟨word, hword, rfl⟩ := Option.map_eq_some_iff.mp hi
  refine ⟨word, List.mem_of_getElem? hword, ?_⟩
  split
  · exact .inr rfl
  · exact .inl rfl

theorem renameWord_append {before : List String} {name : String} {declared : List String}
    (hbefore : ∀ word ∈ before, word ∉ declared) (hname : name ∈ declared) (after : List String)
    (index : Nat) :
    renameWord (before ++ name :: after) index declared =
      before ++ cellName name index :: after := by
  have hnone : before.findIdx? declared.contains = none :=
    List.findIdx?_eq_none_iff.mpr (by simpa using hbefore)
  have hfirst : (before ++ name :: after).findIdx? declared.contains = some before.length := by
    rw [List.findIdx?_append, hnone, List.findIdx?_cons]
    simp [hname]
  rw [renameWord, hfirst, Option.getD_some, List.modify_eq_take_drop]
  simp

/-- Written for a cell, the words of a layer stay words, and bring no comma. -/
theorem renameWord_chars {p : Char → Bool} (hp : p = Text.isBlank ∨ p = isComma)
    {words : List String} (h : ∀ w ∈ words, w ≠ "" ∧ ∀ c ∈ w.toList, p c = false) (index : Nat)
    (declared : List String) :
    ∀ w ∈ renameWord words index declared, w ≠ "" ∧ ∀ c ∈ w.toList, p c = false := by
  intro w hw
  obtain ⟨word, hword, rfl | rfl⟩ := mem_renameWord hw
  · exact h w hword
  · refine ⟨fun hempty => ?_, mem_cellName hp (h word hword).2 index⟩
    have hchars := congrArg String.toList hempty
    simp [toList_cellName] at hchars

/-- Written for a cell, a layer has no comma: its words have none. -/
theorem isComma_renameWord {value layer : String} (h : layer ∈ Text.pieces isComma value)
    (index : Nat) (declared : List String) :
    ∀ c ∈ (" ".intercalate (renameWord (Text.words layer) index declared)).toList,
      isComma c = false := by
  have hwords : ∀ w ∈ Text.words layer, w ≠ "" ∧ ∀ c ∈ w.toList, isComma c = false := by
    intro w hw
    obtain ⟨hne, hchars⟩ := Text.mem_words hw
    exact ⟨hne, fun c hc => (Text.mem_pieces h c (hchars c hc).2).1⟩
  have hrenamed := renameWord_chars (.inr rfl) hwords index declared
  exact Text.forall_mem_intercalate (by simp [isComma]) fun w hw => (hrenamed w hw).2

theorem words_renameWord (layer : String) (index : Nat) (declared : List String) :
    Text.words (" ".intercalate (renameWord (Text.words layer) index declared)) =
      renameWord (Text.words layer) index declared := by
  apply Text.words_intercalate
  refine renameWord_chars (.inl rfl) (fun w hw => ?_) index declared
  exact (Text.mem_words hw).imp_right fun hchars c hc => (hchars c hc).1

/-- Written for a cell, every layer keeps its words, but for the number at one of them. -/
theorem layers_renameLayers (value : String) (index : Nat) (declared : List String) :
    layers (renameLayers value index declared) =
      (layers value).map (renameWord · index declared) := by
  rw [layers, renameLayers, map_pieces_intercalate Text.words_blank_append]
  · rw [layers, List.map_map, List.map_map]
    refine List.map_congr_left fun layer _ => ?_
    rw [Function.comp_apply, Function.comp_apply, words_renameWord]
  · simp [Text.pieces_ne_nil]
  · rw [List.forall_mem_map]
    intro layer hlayer
    exact isComma_renameWord hlayer index declared

/-- Whether a value refers to keyframes of a name: by one of its names, or by the first declared
word of one of its layers. -/
def RefersTo (declared : List String) (property value name : String) : Prop :=
  property = "animation-name" ∧ name ∈ names value ∨
    property = "animation" ∧ ∃ layer ∈ layers value, layer.find? declared.contains = some name

theorem RefersTo.isAnimation {declared : List String} {property value name : String}
    (h : RefersTo declared property value name) : Property.isAnimation property = true := by
  rcases h with ⟨rfl, -⟩ | ⟨rfl, -⟩ <;> decide

/-- The text of a rule that refers to the keyframes of one cell: what is read from it is what is
read from the value, but for the number of the cell at each reference. -/
structure Numbered (declared : List String) (index : Nat) (property value text : String) :
    Prop where
  names : property = "animation-name" → ∃ value', text = plain property value' ∧
    Rule.names value' = (Rule.names value).map (cellName · index)
  layers : property = "animation" → ∃ value', text = plain property value' ∧
    List.Forall₂ (fun layer layer' => ∀ before name after, layer = before ++ name :: after →
        (∀ word ∈ before, word ∉ declared) → name ∈ declared →
          layer' = before ++ cellName name index :: after)
      (Rule.layers value) (Rule.layers value')

theorem numbered_write (property value : String) (index : Nat) (declared : List String) :
    Numbered declared index property value (write property value (some index) declared) where
  names := by
    rintro rfl
    refine ⟨renameNames value index, ?_, names_renameNames value index⟩
    simp only [write]
  layers := by
    rintro rfl
    refine ⟨renameLayers value index declared, by simp only [write], ?_⟩
    rw [layers_renameLayers, List.forall₂_map_right_iff, List.forall₂_same]
    rintro layer - before name after rfl hbefore hname
    exact renameWord_append hbefore hname after index

theorem write_none {property : String} (h : Property.isAnimation property = true) (value : String)
    (declared : List String) : write property value none declared = plain property value := by
  simp only [Property.isAnimation, Bool.or_eq_true, beq_iff_eq] at h
  rcases h with rfl | rfl <;> simp only [write]

end Rule

end GridCss
