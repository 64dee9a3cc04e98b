import Mathlib.Algebra.BigOperators.Ring.List
import Mathlib.Algebra.Order.BigOperators.Group.List
import Mathlib.Algebra.Order.Ring.Nat
import GridCss.Proofs.BracketedWords
import GridCss.Proofs.References

/-!
# Renamed layers

A value of `animation` has layers between its commas, and each layer has one word that refers to
keyframes. In such a value parentheses hold the arguments of timing functions, so that neither their
commas nor their blanks should count. But all do: the number of the cell goes to one word of
whatever stands between two commas. This makes no difference exactly if no comma stands in
parentheses and the word that gets the number is never one that stands, or ends, in parentheses.
-/

namespace GridCss

open Text

namespace Rule

/-- The word of a layer that refers to keyframes: the first that is declared, or else the first of
all. -/
def IsReference (declared before : List String) (word : String) (after : List String) : Prop :=
  (word ∈ declared ∧ ∀ w ∈ before, w ∉ declared) ∨
    (before = [] ∧ ∀ w ∈ word :: after, w ∉ declared)

/-- The reference of a layer gets the number of a cell, and nothing else changes. -/
inductive RenamesReference (declared : List String) (index : Nat) :
    List String → List String → Prop
  | empty : RenamesReference declared index [] []
  | reference {before : List String} {word : String} {after : List String}
      (h : IsReference declared before word after) :
      RenamesReference declared index (before ++ word :: after)
        (before ++ cellName word index :: after)

variable {declared : List String} {index : Nat}

theorem renameWord_of_isReference {before : List String} {word : String} {after : List String}
    (h : IsReference declared before word after) (index : Nat) :
    renameWord (before ++ word :: after) index declared =
      before ++ cellName word index :: after := by
  rcases h with ⟨hword, hbefore⟩ | ⟨rfl, hnone⟩
  · exact renameWord_append hbefore hword after index
  · have hfind : (word :: after).findIdx? declared.contains = none :=
      List.findIdx?_eq_none_iff.mpr (by simpa using hnone)
    rw [List.nil_append, renameWord, hfind]
    rfl

theorem exists_isReference {words : List String} (hne : words ≠ []) (declared : List String) :
    ∃ before word after, words = before ++ word :: after ∧
      IsReference declared before word after := by
  cases hfind : words.find? declared.contains with
  | some word =>
    obtain ⟨hword, before, after, rfl, hbefore⟩ := List.find?_eq_some_iff_append.mp hfind
    exact ⟨before, word, after, rfl, .inl ⟨by simpa using hword, by simpa using hbefore⟩⟩
  | none =>
    obtain ⟨word, after, rfl⟩ := List.exists_cons_of_ne_nil hne
    exact ⟨[], word, after, rfl, .inr ⟨rfl, by simpa using hfind⟩⟩

theorem renamesReference_iff {words words' : List String} :
    RenamesReference declared index words words' ↔ words' = renameWord words index declared := by
  constructor
  · intro h
    cases h with
    | empty => rfl
    | reference h => exact (renameWord_of_isReference h index).symm
  · rintro rfl
    by_cases hne : words = []
    · rw [hne]
      exact .empty
    · obtain ⟨before, word, after, rfl, h⟩ := exists_isReference hne declared
      rw [renameWord_of_isReference h]
      exact .reference h

theorem forall₂_renamesReference_iff {ls ls' : List (List String)} :
    List.Forall₂ (RenamesReference declared index) ls ls' ↔
      ls' = ls.map (renameWord · index declared) := by
  have hreference : RenamesReference declared index =
      fun words words' => renameWord words index declared = words' := by
    funext words words'
    exact propext (renamesReference_iff.trans eq_comm)
  rw [hreference, ← List.forall₂_map_left_iff, List.forall₂_eq_eq_eq, eq_comm]

theorem cellName_ne (word : String) (index : Nat) : cellName word index ≠ word := by
  intro h
  have hlength := congrArg (List.length ∘ String.toList) h
  simp [toList_cellName] at hlength

/-- Where the number is in a list of words tells where it went. -/
theorem eq_of_cellName {before before' after after' : List String} {word word' : String}
    (h : before ++ word :: after = before' ++ word' :: after')
    (h' : before ++ cellName word index :: after = before' ++ cellName word' index :: after') :
    before = before' := by
  rcases List.append_eq_append_iff.mp h with ⟨more, rfl, hmore⟩ | ⟨more, rfl, hmore⟩
  · cases more with
    | nil => rw [List.append_nil]
    | cons w more =>
      obtain ⟨rfl, -⟩ := List.cons.inj hmore
      rw [List.append_assoc] at h'
      exact absurd (List.cons.inj (List.append_cancel_left h')).1 (cellName_ne word index)
  · cases more with
    | nil => rw [List.append_nil]
    | cons w more =>
      obtain ⟨rfl, -⟩ := List.cons.inj hmore
      rw [List.append_assoc] at h'
      exact absurd (List.cons.inj (List.append_cancel_left h')).1.symm (cellName_ne word' index)

theorem isBracket_of_isBlank (c : Char) (h : isBlank c = true) :
    Brackets.round.isBracket c = false := by
  have hne : ∀ d : Char, isBlank d = false → c ≠ d := by
    rintro d hd rfl
    rw [h] at hd
    cases hd
  simp [Brackets.isBracket, Brackets.round, hne '(' (by decide), hne ')' (by decide)]

theorem isBracket_of_isComma (c : Char) (h : isComma c = true) :
    Brackets.round.isBracket c = false := by
  rw [isComma, beq_iff_eq] at h
  rw [h]
  rfl

/-- Numbers of cells open and close nothing. -/
theorem isBracket_number {c : Char} (h : c ∈ '-' :: Nat.toDigits 10 index) :
    Brackets.round.isBracket c = false := by
  have hne : ∀ d : Char, d.isDigit = false → d ≠ '-' → c ≠ d := by
    rintro d hd hminus rfl
    rcases List.mem_cons.mp h with hc | hc
    · exact hminus hc
    · rw [Nat.isDigit_of_mem_toDigits (by decide) (by decide) hc] at hd
      cases hd
  simp [Brackets.isBracket, Brackets.round, hne '(' (by decide) (by decide),
    hne ')' (by decide) (by decide)]

theorem depthFrom_renameWord (depth : Nat) (words : List String) :
    Brackets.round.depthFrom depth ((renameWord words index declared).flatMap String.toList) =
      Brackets.round.depthFrom depth (words.flatMap String.toList) := by
  by_cases hne : words = []
  · rw [hne]
    rfl
  · obtain ⟨before, word, after, rfl, h⟩ := exists_isReference hne declared
    rw [renameWord_of_isReference h]
    simp only [List.flatMap_append, List.flatMap_cons, toList_cellName, Brackets.depthFrom_append]
    rw [Brackets.depthFrom_of_isBracket fun c hc => isBracket_number hc]

/-- The number of a cell goes to the last of the words in a whole word. -/
theorem exists_words_cellName {word : String} (h : Brackets.round.IsWhole word) (index : Nat) :
    ∃ before last, Text.words word = before ++ [last] ∧
      Text.words (cellName word index) = before ++ [cellName last index] := by
  have hsuffix : ∀ c ∈ '-' :: Nat.toDigits 10 index, isBlank c = false := fun c hc =>
    (number_chars hc).1
  have hname : ∀ w, cellName w index =
      String.ofList (w.toList ++ '-' :: Nat.toDigits 10 index) := by
    intro w
    rw [← String.toList_inj, toList_cellName, String.toList_ofList]
  have hne : word.toList ≠ [] := fun hnil => h.ne (String.toList_eq_nil_iff.mp hnil)
  obtain ⟨before, last, hwords, hmore⟩ :=
    exists_words_append hne (h.getLast_not_blank isBracket_of_isBlank) hsuffix
  rw [String.ofList_toList] at hwords
  refine ⟨before, last, hwords, ?_⟩
  rw [hname, hmore, hname last, String.ofList_append, String.ofList_toList]

/-- Among whole words the number goes to a word behind which all parentheses are closed. -/
theorem exists_renameWord_wholes {wholes : List String}
    (h : ∀ word ∈ wholes, Brackets.round.IsWhole word) (hne : wholes ≠ [])
    (declared : List String) (index : Nat) :
    ∃ before word after, wholes.flatMap Text.words = before ++ word :: after ∧
      Brackets.round.Closed ((before ++ [word]).flatMap String.toList) ∧
      Text.words (" ".intercalate (renameWord wholes index declared)) =
        before ++ cellName word index :: after := by
  obtain ⟨front, whole, back, rfl, href⟩ := exists_isReference hne declared
  obtain ⟨hfront, hwhole, hback⟩ := by simpa [or_imp, forall_and] using h
  obtain ⟨before, last, hwords, hname⟩ := exists_words_cellName hwhole index
  refine ⟨front.flatMap Text.words ++ before, last, back.flatMap Text.words, ?_, ?_, ?_⟩
  · rw [List.flatMap_append, List.flatMap_cons, hwords]
    simp
  · have hclosed := Brackets.closed_flatMap_words isBracket_of_isBlank hfront
    rw [List.append_assoc, ← hwords, List.flatMap_append, Brackets.Closed,
      Brackets.depthFrom_append, hclosed]
    exact hwhole.closed_words isBracket_of_isBlank
  · rw [renameWord_of_isReference href, words_intercalate_flatMap, List.flatMap_append,
      List.flatMap_cons, hname]
    simp

section

variable (hdeclared : ∀ name ∈ declared, ∀ c ∈ name.toList, Brackets.round.isBracket c = false)
include hdeclared

/-- A whole word whose last word is the reference among all words is that among the whole words:
what is declared has no parentheses, so that it is one of all words and a whole word, too. -/
theorem isReference_wholes {front back start : List String} {whole word : String}
    (h : ∀ w ∈ front ++ whole :: back, Brackets.round.IsWhole w)
    (hwhole : Text.words whole = start ++ [word])
    (href : IsReference declared (front.flatMap Text.words ++ start) word
      (back.flatMap Text.words)) : IsReference declared front whole back := by
  have hsingle : ∀ w ∈ front ++ whole :: back, w ∈ declared → w ∈ Text.words w := by
    intro w hw hname
    rw [(h w hw).words_eq_singleton (hdeclared w hname)]
    exact List.mem_singleton_self w
  rcases href with ⟨hword, hbefore⟩ | ⟨hnil, hnone⟩
  · obtain ⟨-, rfl⟩ := (h whole (by simp)).eq_of_last isBracket_of_isBlank hwhole
      (hdeclared word hword)
    refine .inl ⟨hword, fun w hw hname => hbefore w ?_ hname⟩
    rw [List.mem_append, List.mem_flatMap]
    exact .inl ⟨w, hw, hsingle w (List.mem_append_left _ hw) hname⟩
  · obtain ⟨hfront, rfl⟩ := List.append_eq_nil_iff.mp hnil
    have hfront' : front = [] := by
      rw [List.flatMap_eq_nil_iff] at hfront
      rw [List.eq_nil_iff_forall_not_mem]
      intro w hw
      exact (h w (List.mem_append_left _ hw)).words_ne_nil (hfront w hw)
    refine .inr ⟨hfront', fun w hw hname => hnone w ?_ hname⟩
    have hmem : w ∈ (whole :: back).flatMap Text.words :=
      List.mem_flatMap.mpr ⟨w, hw, hsingle w (List.mem_append_right _ hw) hname⟩
    rwa [List.flatMap_cons, hwhole] at hmem

/-- If all parentheses are closed behind the reference among all words, it is the last word of the
reference among the whole words. -/
theorem words_renameWord_wholes {wholes : List String}
    (h : ∀ word ∈ wholes, Brackets.round.IsWhole word) {before : List String} {word : String}
    {after : List String} (hwords : wholes.flatMap Text.words = before ++ word :: after)
    (href : IsReference declared before word after)
    (hclosed : Brackets.round.Closed ((before ++ [word]).flatMap String.toList)) :
    Text.words (" ".intercalate (renameWord wholes index declared)) =
      before ++ cellName word index :: after := by
  have hcut : wholes.flatMap Text.words = (before ++ [word]) ++ after := by simpa using hwords
  obtain ⟨filled, back, rfl, hfilled⟩ :=
    Brackets.exists_append_of_closed isBracket_of_isBlank h hcut hclosed
  have hafter : after = back.flatMap Text.words := by
    rw [hfilled, List.flatMap_append] at hcut
    exact (List.append_cancel_left hcut).symm
  rcases List.eq_nil_or_concat filled with rfl | ⟨front, whole, rfl⟩
  · simp at hfilled
  rw [List.concat_eq_append, List.append_assoc, List.singleton_append] at h ⊢
  obtain ⟨start, last, hstart, hname⟩ := exists_words_cellName (h whole (by simp)) index
  have hplace : before ++ [word] = (front.flatMap Text.words ++ start) ++ [last] := by
    rw [hfilled, List.concat_eq_append, List.flatMap_append, List.flatMap_singleton, hstart,
      List.append_assoc]
  obtain ⟨rfl, hlast⟩ := List.append_inj' hplace rfl
  obtain rfl : word = last := by simpa using hlast
  rw [hafter] at href ⊢
  rw [renameWord_of_isReference (isReference_wholes hdeclared h hstart href),
    words_intercalate_flatMap, List.flatMap_append, List.flatMap_cons, hname]
  simp

/-- In a layer the number goes to the right place exactly if all parentheses are closed behind the
word that gets it. -/
theorem renameWord_words_iff {layer : String} (hlayer : Brackets.round.Closed layer.toList) :
    Text.words (" ".intercalate (renameWord (Brackets.round.words layer) index declared)) =
        renameWord (Text.words layer) index declared ↔
      ∀ before word after, Text.words layer = before ++ word :: after →
        IsReference declared before word after →
          Brackets.round.Closed ((before ++ [word]).flatMap String.toList) := by
  have hwholes : ∀ word ∈ Brackets.round.words layer, Brackets.round.IsWhole word := fun word =>
    Brackets.isWhole_of_mem_words isBracket_of_isBlank hlayer
  have hwords := Brackets.words_eq_flatMap_words Brackets.round layer
  constructor
  · intro heq before word after hlayer' href
    have hne : Brackets.round.words layer ≠ [] := by
      intro hnil
      rw [hwords, hnil] at hlayer'
      simp at hlayer'
    obtain ⟨before', word', after', hwords', hclosed, hrenamed⟩ :=
      exists_renameWord_wholes hwholes hne declared index
    rw [← hwords, hlayer'] at hwords'
    rw [hrenamed, hlayer', renameWord_of_isReference href] at heq
    obtain rfl := eq_of_cellName hwords' heq.symm
    rw [(List.cons.inj (List.append_cancel_left hwords')).1]
    exact hclosed
  · intro hclosed
    by_cases hne : Text.words layer = []
    · have hnil : Brackets.round.words layer = [] := by
        rw [hwords, List.flatMap_eq_nil_iff] at hne
        rw [List.eq_nil_iff_forall_not_mem]
        intro w hw
        exact (hwholes w hw).words_ne_nil (hne w hw)
      rw [hne, hnil]
      rfl
    · obtain ⟨before, word, after, hlayer', href⟩ := exists_isReference hne declared
      rw [hlayer', renameWord_of_isReference href]
      exact words_renameWord_wholes hdeclared hwholes (hwords ▸ hlayer') href
        (hclosed before word after hlayer' href)

end

/-- The number of characters in some words. -/
def letters (words : List String) : Nat := (words.flatMap String.toList).length

/-- The number of references in a layer: one, if there are words. -/
def references (words : List String) : Nat := if words = [] then 0 else 1

/-- The number of characters by which a reference grows. -/
def growth (index : Nat) : Nat := (Nat.toDigits 10 index).length + 1

theorem letters_cellName (before after : List String) (word : String) (index : Nat) :
    letters (before ++ cellName word index :: after) =
      letters (before ++ word :: after) + growth index * references (before ++ word :: after) := by
  have hne : before ++ word :: after ≠ [] := by simp
  simp only [letters, growth, references, if_neg hne, List.flatMap_append, List.flatMap_cons,
    List.length_append, toList_cellName, List.length_cons]
  omega

theorem letters_renameWord (words : List String) :
    letters (renameWord words index declared) =
      letters words + growth index * references words := by
  by_cases hne : words = []
  · rw [hne]
    rfl
  · obtain ⟨before, word, after, rfl, h⟩ := exists_isReference hne declared
    rw [renameWord_of_isReference h, letters_cellName]

theorem letters_renameWord_wholes {layer : String} (h : Brackets.round.Closed layer.toList) :
    letters (Text.words (" ".intercalate
        (renameWord (Brackets.round.words layer) index declared))) =
      letters (Text.words layer) + growth index * references (Text.words layer) := by
  have hwords := Brackets.words_eq_flatMap_words Brackets.round layer
  by_cases hne : Brackets.round.words layer = []
  · rw [hwords, hne]
    rfl
  · obtain ⟨before, word, after, hwords', -, hrenamed⟩ := exists_renameWord_wholes
      (fun w => Brackets.isWhole_of_mem_words isBracket_of_isBlank h) hne declared index
    rw [hrenamed, hwords, hwords', letters_cellName]

/-- Split at commas, whichever count, a text loses nothing but these and its blanks. -/
theorem letters_pieces (b : Brackets) (s : String) :
    ((b.pieces isComma s).map fun piece => letters (Text.words piece)).sum +
        (b.pieces isComma s).length = (s.toList.filter (! isBlank ·)).length + 1 := by
  have hcomma : ∀ c, isComma c = true → (! isBlank c) = true := by
    intro c hc
    rw [isComma, beq_iff_eq] at hc
    rw [hc]
    decide
  have hpiece : ∀ cs, letters (Text.words (String.ofList cs)) =
      (cs.filter (! isBlank ·)).length := by
    intro cs
    rw [letters, flatMap_toList_words, String.toList_ofList]
  rw [← Brackets.length_split b 0 s.toList hcomma, Brackets.pieces, List.map_map, List.length_map]
  simp only [Function.comp_def, hpiece]

theorem pieces_none (s : String) : Brackets.none.pieces isComma s = Text.pieces isComma s := by
  rw [Brackets.pieces, Brackets.split_none, Text.pieces]

theorem closed_of_mem_pieces {value layer : String} (hvalue : Brackets.round.Closed value.toList)
    (h : layer ∈ Brackets.round.pieces isComma value) : Brackets.round.Closed layer.toList := by
  obtain ⟨cs, hcs, rfl⟩ := List.mem_map.mp h
  rw [String.toList_ofList]
  exact Brackets.closed_of_mem_split isBracket_of_isComma hvalue hcs

/-- Where the layers come out right, there are as many references if commas in parentheses count as
if they do not. -/
theorem sum_references_eq {value : String} (hvalue : Brackets.round.Closed value.toList)
    (h : (Brackets.round.pieces isComma (renameLayers value index declared)).map Text.words =
      (Brackets.round.pieces isComma value).map fun layer => Text.words (" ".intercalate
        (renameWord (Brackets.round.words layer) index declared))) :
    ((Brackets.round.pieces isComma value).map fun layer => references (Text.words layer)).sum =
      ((layers value).map references).sum := by
  have hclosed : ∀ layer ∈ Brackets.round.pieces isComma value,
      Brackets.round.Closed layer.toList := fun layer => closed_of_mem_pieces hvalue
  -- The same text is counted twice, with and without regard to parentheses.
  have houter := letters_pieces Brackets.round (renameLayers value index declared)
  have hall := letters_pieces Brackets.none (renameLayers value index declared)
  have houter' := letters_pieces Brackets.round value
  have hall' := letters_pieces Brackets.none value
  have hlength := congrArg List.length h
  have hsum := congrArg (fun ls => (ls.map letters).sum) h
  have hlayers := layers_renameLayers value index declared
  have hlength' := congrArg List.length hlayers
  have hsum' := congrArg (fun ls => (ls.map letters).sum) hlayers
  simp only [layers, List.map_map, List.length_map,
    Function.comp_def] at hlength hsum hlength' hsum' ⊢
  rw [List.map_congr_left fun layer hlayer => letters_renameWord_wholes (hclosed layer hlayer),
    List.sum_map_add, List.sum_map_mul_left] at hsum
  simp only [letters_renameWord, List.sum_map_add, List.sum_map_mul_left] at hsum'
  rw [pieces_none] at hall hall'
  have hgrowth : 0 < growth index := Nat.succ_pos _
  apply Nat.eq_of_mul_eq_mul_left hgrowth
  omega

theorem layers_eq_flatMap (b : Brackets) (value : String) :
    layers value = (b.pieces isComma value).flatMap layers := by
  have hpieces : Text.pieces isComma value =
      (b.pieces isComma value).flatMap (Text.pieces isComma) := by
    simp only [Text.pieces, Brackets.pieces, List.flatMap_map, String.toList_ofList]
    rw [Brackets.splitOnP_eq_flatMap_split b isComma 0, List.map_flatMap]
  rw [layers, hpieces, List.map_flatMap]
  rfl

theorem one_le_sum_references {cs : List Char} {c : Char} (hc : c ∈ cs)
    (hbracket : Brackets.round.isBracket c = true) :
    1 ≤ ((layers (String.ofList cs)).map references).sum := by
  have hblank : isBlank c = false := by
    by_contra hblank
    rw [isBracket_of_isBlank c (by simpa using hblank)] at hbracket
    cases hbracket
  have hcomma : isComma c = false := by
    by_contra hcomma
    rw [isBracket_of_isComma c (by simpa using hcomma)] at hbracket
    cases hbracket
  have hmem : c ∈ (cs.splitOnP isComma).flatten := by
    rw [flatten_splitOnP]
    simp [hc, hcomma]
  obtain ⟨piece, hpiece, hc'⟩ := List.mem_flatten.mp hmem
  have hne : Text.words (String.ofList piece) ≠ [] := by
    intro hnil
    have hfilter := flatMap_toList_words (String.ofList piece)
    rw [hnil, List.flatMap_nil, String.toList_ofList, eq_comm, List.filter_eq_nil_iff] at hfilter
    exact hfilter c hc' (by simp [hblank])
  apply List.le_sum_of_mem
  refine List.mem_map.mpr ⟨Text.words (String.ofList piece), ?_, if_neg hne⟩
  refine List.mem_map.mpr ⟨String.ofList piece, ?_, rfl⟩
  rw [Text.pieces, String.toList_ofList]
  exact List.mem_map_of_mem hpiece

/-- A comma in parentheses has words before and behind it. -/
theorem two_le_sum_references {piece : List Char} (hclosed : Brackets.round.Closed piece)
    (hencloses : Brackets.round.Encloses isComma 0 piece) {c : Char} (hc : c ∈ piece)
    (hcomma : isComma c = true) :
    2 ≤ ((layers (String.ofList piece)).map references).sum := by
  obtain ⟨x, y, rfl⟩ := List.append_of_mem hc
  have hx : ∃ a ∈ x, Brackets.round.isBracket a = true := by
    by_contra hnone
    apply hencloses x c y rfl hcomma
    exact Brackets.depthFrom_of_isBracket (by simpa using hnone)
  have hy : ∃ a ∈ y, Brackets.round.isBracket a = true := by
    by_contra hnone
    apply hencloses x c y rfl hcomma
    rw [Brackets.Closed, Brackets.depthFrom_append, Brackets.depthFrom_cons,
      Brackets.step_of_isBracket (isBracket_of_isComma c hcomma),
      Brackets.depthFrom_of_isBracket (by simpa using hnone)] at hclosed
    exact hclosed
  obtain ⟨a, ha, hbracket⟩ := hx
  obtain ⟨a', ha', hbracket'⟩ := hy
  have hsplit : layers (String.ofList (x ++ c :: y)) =
      layers (String.ofList x) ++ layers (String.ofList y) := by
    simp only [layers, Text.pieces, String.toList_ofList]
    rw [List.splitOnP_append_cons x y hcomma, List.map_append, List.map_append]
  have hfront := one_le_sum_references ha hbracket
  have hback := one_le_sum_references ha' hbracket'
  rw [hsplit, List.map_append, List.sum_append]
  omega

theorem separates_of_sum_references {value : String} (hvalue : Brackets.round.Closed value.toList)
    (h : ((Brackets.round.pieces isComma value).map fun layer =>
        references (Text.words layer)).sum = ((layers value).map references).sum) :
    Brackets.round.Separates isComma 0 value.toList := by
  rw [← Brackets.split_free_iff isBracket_of_isComma]
  by_contra hfree
  push Not at hfree
  obtain ⟨piece, hpiece, c, hc, hcomma⟩ := hfree
  have hsum : ((layers value).map references).sum =
      ((Brackets.round.pieces isComma value).map fun layer =>
        ((layers layer).map references).sum).sum := by
    rw [layers_eq_flatMap Brackets.round value, List.map_flatMap, List.flatMap_def,
      List.sum_flatten, List.map_map]
    rfl
  have hone : ∀ words : List String, references words ≤ 1 := by
    intro words
    unfold references
    split <;> omega
  have hpieces : ∀ cs ∈ Brackets.round.split isComma 0 value.toList,
      (∀ c ∈ cs, isComma c = false) ∨
        2 ≤ ((layers (String.ofList cs)).map references).sum := by
    intro cs hcs
    by_cases hnone : ∀ c ∈ cs, isComma c = false
    · exact .inl hnone
    · push Not at hnone
      obtain ⟨c, hc, hcomma⟩ := hnone
      exact .inr (two_le_sum_references
        (Brackets.closed_of_mem_split isBracket_of_isComma hvalue hcs)
        (Brackets.encloses_of_mem_split hcs) hc (by simpa using hcomma))
  refine absurd h (Nat.ne_of_lt ?_)
  rw [hsum]
  apply List.sum_lt_sum
  · intro layer hlayer
    obtain ⟨cs, hcs, rfl⟩ := List.mem_map.mp hlayer
    rcases hpieces cs hcs with hnone | htwo
    · simp [layers, Text.pieces, List.splitOnP_eq_singleton hnone]
    · exact (hone _).trans (by omega)
  · refine ⟨String.ofList piece, List.mem_map_of_mem hpiece, ?_⟩
    rcases hpieces piece hpiece with hnone | htwo
    · exact absurd (hnone c hc) hcomma
    · exact lt_of_le_of_lt (hone _) (by omega)

theorem closed_renameWord {layer : String} (h : Brackets.round.Closed layer.toList) :
    Brackets.round.Closed
      (" ".intercalate (renameWord (Text.words layer) index declared)).toList := by
  rw [Brackets.Closed, ← Brackets.depthFrom_words isBracket_of_isBlank, words_renameWord,
    depthFrom_renameWord, Brackets.depthFrom_words isBracket_of_isBlank]
  exact h

/-- Where no comma stands in parentheses, none does when the layers have been renamed. -/
theorem pieces_renameLayers {value : String} (hvalue : Brackets.round.Closed value.toList)
    (hpieces : Brackets.round.pieces isComma value = Text.pieces isComma value) :
    Brackets.round.pieces isComma (renameLayers value index declared) =
      Text.pieces isComma (renameLayers value index declared) := by
  have hlayers : ∀ t ∈ (Text.pieces isComma value).map (fun layer =>
      " ".intercalate (renameWord (Text.words layer) index declared)),
      Brackets.round.Closed t.toList ∧ ∀ c ∈ t.toList, isComma c = false := by
    rw [List.forall_mem_map]
    intro layer hlayer
    have hclosed := closed_of_mem_pieces hvalue (hpieces ▸ hlayer)
    exact ⟨closed_renameWord hclosed, isComma_renameWord hlayer index declared⟩
  obtain ⟨t, ts, hts⟩ := List.exists_cons_of_ne_nil (Text.pieces_ne_nil isComma value)
  rw [hts, List.map_cons] at hlayers
  have hgap : ∀ c ∈ " ".toList, isComma c = false ∧ Brackets.round.isBracket c = false := by
    simp [isComma, Brackets.isBracket, Brackets.round]
  rw [renameLayers, hts, List.map_cons,
    Brackets.pieces_intercalate (c := ',') rfl rfl hgap hlayers,
    Text.pieces_intercalate (c := ',') rfl rfl (fun c hc => (hgap c hc).1)
      fun u hu => (hlayers u hu).2]

/-- The layers of an animation, where neither commas nor blanks in parentheses count. -/
def wholeLayers (value : String) : List (List String) :=
  (Brackets.round.pieces isComma value).map Brackets.round.words

/-- There is one text and one list of renamed layers to compare. -/
theorem exists_renamed_iff {value : String} :
    (∃ text renamed, write "animation" value (some index) declared = plain "animation" text ∧
      List.Forall₂ (RenamesReference declared index) (wholeLayers value) renamed ∧
      (Brackets.round.pieces isComma text).map Text.words =
        renamed.map fun layer => Text.words (" ".intercalate layer)) ↔
    (Brackets.round.pieces isComma (renameLayers value index declared)).map Text.words =
      (Brackets.round.pieces isComma value).map fun layer => Text.words (" ".intercalate
        (renameWord (Brackets.round.words layer) index declared)) := by
  have hwrite : ∀ text, write "animation" value (some index) declared = plain "animation" text ↔
      text = renameLayers value index declared := by
    intro text
    simp [write, plain, eq_comm]
  simp only [hwrite, forall₂_renamesReference_iff]
  constructor
  · rintro ⟨_, _, rfl, rfl, h⟩
    simpa only [wholeLayers, List.map_map, Function.comp_def] using h
  · intro h
    refine ⟨_, _, rfl, rfl, ?_⟩
    simpa only [wholeLayers, List.map_map, Function.comp_def] using h

/-- In a value where all parentheses are closed, the reference of each layer and nothing else is
renamed, up to blanks, exactly if no comma stands in parentheses and all parentheses are closed
behind the reference among all words between two commas. -/
theorem write_animation_renamesReference_iff {value : String}
    (hvalue : Brackets.round.Closed value.toList) {declared : List String}
    (hdeclared : ∀ name ∈ declared, ∀ c ∈ name.toList, Brackets.round.isBracket c = false)
    (index : Nat) :
    (∃ text renamed, write "animation" value (some index) declared = plain "animation" text ∧
      List.Forall₂ (RenamesReference declared index) (wholeLayers value) renamed ∧
      (Brackets.round.pieces isComma text).map Text.words =
        renamed.map fun layer => Text.words (" ".intercalate layer)) ↔
    Brackets.round.Separates isComma 0 value.toList ∧
      ∀ layer ∈ layers value, ∀ before word after, layer = before ++ word :: after →
        IsReference declared before word after →
          Brackets.round.Closed ((before ++ [word]).flatMap String.toList) := by
  rw [exists_renamed_iff]
  have hpieces : Brackets.round.Separates isComma 0 value.toList →
      Brackets.round.pieces isComma value = Text.pieces isComma value := by
    intro hseparates
    rw [Brackets.pieces, Text.pieces, Brackets.split_eq_splitOnP
      ((Brackets.split_free_iff isBracket_of_isComma).mpr hseparates)]
  have hlayers : Brackets.round.Separates isComma 0 value.toList →
      (Brackets.round.pieces isComma (renameLayers value index declared)).map Text.words =
        (Brackets.round.pieces isComma value).map fun layer =>
          renameWord (Text.words layer) index declared := by
    intro hseparates
    rw [pieces_renameLayers hvalue (hpieces hseparates), hpieces hseparates]
    have hlayers := layers_renameLayers value index declared
    rwa [layers, layers, List.map_map] at hlayers
  constructor
  · intro h
    have hseparates := separates_of_sum_references hvalue (sum_references_eq hvalue h)
    refine ⟨hseparates, List.forall_mem_map.mpr fun layer hlayer => ?_⟩
    rw [hlayers hseparates, List.map_inj_left] at h
    rw [← hpieces hseparates] at hlayer
    exact (renameWord_words_iff hdeclared (closed_of_mem_pieces hvalue hlayer)).mp
      (h layer hlayer).symm
  · rintro ⟨hseparates, hclosed⟩
    rw [hlayers hseparates, List.map_inj_left]
    intro layer hlayer
    refine ((renameWord_words_iff hdeclared (closed_of_mem_pieces hvalue hlayer)).mpr ?_).symm
    rw [hpieces hseparates] at hlayer
    exact hclosed (Text.words layer) (List.mem_map_of_mem hlayer)

/-- A declared name behind a timing function, and a layer without one. -/
theorem write_animation_renamesReference_steps :
    let value := "1s steps(2) spin, fade 2s"
    Brackets.round.Closed value.toList ∧
      (∀ name ∈ ["spin"], ∀ c ∈ name.toList, Brackets.round.isBracket c = false) ∧
      ∃ text renamed, write "animation" value (some 4) ["spin"] = plain "animation" text ∧
        List.Forall₂ (RenamesReference ["spin"] 4) (wholeLayers value) renamed ∧
        (Brackets.round.pieces isComma text).map Text.words =
          renamed.map fun layer => Text.words (" ".intercalate layer) := by
  intro value
  have hvalue : Brackets.round.Closed value.toList := by decide
  have hdeclared : ∀ name ∈ ["spin"], ∀ c ∈ name.toList, Brackets.round.isBracket c = false := by
    simp [Brackets.isBracket, Brackets.round]
  refine ⟨hvalue, hdeclared, (write_animation_renamesReference_iff hvalue hdeclared 4).mpr ⟨?_, ?_⟩⟩
  · have hsplit : Brackets.round.split isComma 0 value.toList =
        ["1s steps(2) spin".toList, " fade 2s".toList] := by decide
    rw [← Brackets.split_free_iff isBracket_of_isComma, hsplit]
    simp [isComma]
  · have hlayers : layers value = ["1s steps(2) spin", " fade 2s"].map Text.words := by
      decide +kernel
    have hrenamed : ∀ layer ∈ ["1s steps(2) spin", " fade 2s"],
        Brackets.round.Closed layer.toList ∧ Text.words (" ".intercalate
          (renameWord (Brackets.round.words layer) 4 ["spin"])) =
            renameWord (Text.words layer) 4 ["spin"] := by
      decide +kernel
    rw [hlayers, List.forall_mem_map]
    intro layer hlayer
    obtain ⟨hclosed, heq⟩ := hrenamed layer hlayer
    exact (renameWord_words_iff hdeclared hclosed).mp heq

/-- Commas between the arguments of a timing function: three of them get numbers, too. -/
theorem write_animation_not_renamesReference :
    let value := "spin 1s cubic-bezier(0.1, 0.7, 1, 0.1)"
    write "animation" value (some 4) ["spin"] =
        "animation: spin-4 1s cubic-bezier(0.1, 0.7-4, 1-4, 0.1)-4;" ∧
      wholeLayers value = [["spin", "1s", "cubic-bezier(0.1, 0.7, 1, 0.1)"]] ∧
      ¬ ∃ text renamed, write "animation" value (some 4) ["spin"] = plain "animation" text ∧
        List.Forall₂ (RenamesReference ["spin"] 4) (wholeLayers value) renamed ∧
        (Brackets.round.pieces isComma text).map Text.words =
          renamed.map fun layer => Text.words (" ".intercalate layer) := by
  intro value
  refine ⟨by decide +kernel, by decide +kernel, ?_⟩
  rw [exists_renamed_iff]
  decide +kernel

end Rule

end GridCss
