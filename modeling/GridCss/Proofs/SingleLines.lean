import GridCss.Function.Builtin
import GridCss.Proofs.References
import GridCss.Style.RuleSheet

/-!
# Texts on a single line

Numbers, units and shapes are written without line breaks. A rule is written on a single line if its
property and its value are, whatever the property stands for and whichever names are given numbers;
a group is if its selector and its rules are.
-/

namespace GridCss

namespace Text

def IsLine (s : String) : Prop := '\n' ∉ s.toList

instance decidableIsLine (s : String) : Decidable (IsLine s) := inferInstanceAs (Decidable (¬ _))

theorem IsLine.of_subset {s t : String} (h : IsLine s) (hsub : ∀ c ∈ t.toList, c ∈ s.toList) :
    IsLine t := fun hc => h (hsub _ hc)

@[simp] theorem isLine_append {s t : String} : IsLine (s ++ t) ↔ IsLine s ∧ IsLine t := by
  simp [IsLine]

theorem isLine_intercalate {separator : String} (hseparator : IsLine separator)
    {ts : List String} : IsLine (separator.intercalate ts) ↔ ∀ t ∈ ts, IsLine t := by
  induction ts with
  | nil => simp [IsLine]
  | cons t ts ih =>
    cases ts with
    | nil => simp
    | cons u ts =>
      rw [String.intercalate_cons_cons, isLine_append, isLine_append, ih, and_iff_left hseparator,
        List.forall_mem_cons (a := t)]

theorem isLine_trim {s : String} (h : IsLine s) : IsLine (trim s) := h.of_subset fun _ => mem_trim

theorem isLine_of_mem_pieces {p : Char → Bool} {s t : String} (h : IsLine s)
    (ht : t ∈ pieces p s) : IsLine t := h.of_subset fun c hc => (mem_pieces ht c hc).2

theorem isLine_of_mem_fields {p : Char → Bool} {s t : String} (h : IsLine s)
    (ht : t ∈ fields p s) : IsLine t := by
  rw [fields_eq_filter] at ht
  exact isLine_of_mem_pieces h (List.mem_of_mem_filter ht)

/-- The digits of a number are all on one line. -/
theorem newline_not_mem_toDigits (n : Nat) : '\n' ∉ Nat.toDigits 10 n := by
  intro h
  exact absurd (Nat.isDigit_of_mem_toDigits (by decide) (by decide) h) (by decide)

end Text

open Text

namespace Number

theorem Decimal.isLine_positional (d : Decimal) : IsLine d.positional := by
  have hdigits := newline_not_mem_toDigits d.digits
  have hzeros : ∀ n, '\n' ∉ List.replicate n '0' := fun n h =>
    absurd (List.eq_of_mem_replicate h) (by decide)
  unfold positional
  split
  · rw [IsLine, String.toList_ofList, List.mem_append, not_or]
    exact ⟨hdigits, hzeros _⟩
  · -- The point stands somewhere in the padded digits.
    have hpadded : ∀ n, '\n' ∉ List.replicate n '0' ++ Nat.toDigits 10 d.digits := by
      intro n
      rw [List.mem_append, not_or]
      exact ⟨hzeros n, hdigits⟩
    rw [IsLine, String.toList_ofList, List.mem_append, List.mem_cons, not_or, not_or]
    exact ⟨fun h => hpadded _ (List.mem_of_mem_take h), by decide,
      fun h => hpadded _ (List.mem_of_mem_drop h)⟩

theorem isLine_text (x : Float) : IsLine (text x) := by
  unfold text
  split
  · decide
  · split
    · split <;> decide
    · dsimp only
      split
      · decide
      · split
        · exact isLine_append.mpr ⟨by decide, Decimal.isLine_positional _⟩
        · exact Decimal.isLine_positional _

end Number

theorem Measure.isLine_text (m : Measure) : IsLine m.text := by
  cases m <;> decide

namespace Shape

theorem isLine_polygon (s : Sampling) (curve : Curve) : IsLine (polygon s curve) := by
  have hpercent : ∀ x, IsLine (s.percent x) := fun x =>
    isLine_append.mpr ⟨Number.isLine_text _, by decide⟩
  have hpoint : ∀ p, IsLine (s.pointText p) := fun p =>
    isLine_append.mpr ⟨isLine_append.mpr ⟨hpercent p.x, by decide⟩, hpercent p.y⟩
  refine isLine_append.mpr ⟨isLine_append.mpr ⟨by decide, ?_⟩, by decide⟩
  rw [isLine_intercalate (by decide)]
  intro t ht
  obtain ⟨i, -, rfl⟩ := List.mem_map.mp ht
  exact hpoint _

theorem isLine_hypocycloid (cusps : Float) : IsLine (hypocycloid cusps) := by
  unfold hypocycloid
  exact isLine_polygon _ _

theorem isLine_of_generate {name : String} {arguments : List Value} {s : String}
    (h : generate name arguments = some s) : IsLine s := by
  unfold generate at h
  dsimp only at h
  split at h <;> cases h
  all_goals first
    | with_reducible exact isLine_polygon _ _
    | with_reducible exact isLine_hypocycloid _
    | decide

end Shape

namespace Rule

theorem isLine_cellName {name : String} (h : IsLine name) (index : Nat) :
    IsLine (cellName name index) := by
  rw [IsLine, toList_cellName, List.mem_append, List.mem_cons, not_or, not_or]
  exact ⟨h, by decide, newline_not_mem_toDigits index⟩

theorem isLine_renameNames {value : String} (h : IsLine value) (index : Nat) :
    IsLine (renameNames value index) := by
  rw [renameNames, isLine_intercalate (by decide), List.forall_mem_map]
  intro name hname
  exact isLine_cellName (isLine_trim (isLine_of_mem_pieces h hname)) index

theorem isLine_renameLayers {value : String} (h : IsLine value) (index : Nat)
    (declared : List String) : IsLine (renameLayers value index declared) := by
  rw [renameLayers, isLine_intercalate (by decide), List.forall_mem_map]
  intro layer hlayer
  rw [isLine_intercalate (by decide)]
  intro w hw
  obtain ⟨word, hword, hw⟩ := mem_renameWord hw
  have hline : IsLine word := isLine_of_mem_fields (isLine_of_mem_pieces h hlayer) hword
  rcases hw with rfl | rfl
  · exact hline
  · exact isLine_cellName hline index

theorem isLine_plain {property value : String} (hproperty : IsLine property) (h : IsLine value) :
    IsLine (plain property value) := by
  simp only [plain, isLine_append]
  exact ⟨⟨⟨hproperty, by decide⟩, h⟩, by decide⟩

theorem isLine_size {width height value : String} (hwidth : IsLine width) (hheight : IsLine height)
    (h : IsLine value) : IsLine (size width height value) := by
  have hpart : ∀ t ∈ fields isSizeSeparator value, IsLine t := fun t => isLine_of_mem_fields h
  have hfirst : IsLine ((fields isSizeSeparator value).head?.getD "") := by
    cases hhead : (fields isSizeSeparator value).head? with
    | none => exact by decide
    | some t => exact hpart t (List.mem_of_head? hhead)
  have hsecond : IsLine ((fields isSizeSeparator value)[1]?.getD
      ((fields isSizeSeparator value).head?.getD "")) := by
    cases hnext : (fields isSizeSeparator value)[1]? with
    | none => exact hfirst
    | some t => exact hpart t (List.mem_of_getElem? hnext)
  simp only [size, isLine_append]
  exact ⟨⟨isLine_plain hwidth hfirst, by decide⟩, isLine_plain hheight hsecond⟩

/-- A rule has line breaks only where its property or its value does. -/
theorem isLine_write {property value : String} (hproperty : IsLine property) (h : IsLine value)
    (rename : Option Nat) (declared : List String) :
    IsLine (write property value rename declared) := by
  unfold write
  split
  · simp only [isLine_append]
    exact ⟨⟨⟨isLine_plain (by decide) h, by decide⟩, isLine_plain (by decide) h⟩, by decide⟩
  · cases rename with
    | none => exact isLine_plain (by decide) h
    | some index => exact isLine_plain (by decide) (isLine_renameNames h index)
  · cases rename with
    | none => exact isLine_plain (by decide) h
    | some index => exact isLine_plain (by decide) (isLine_renameLayers h index declared)
  · exact isLine_size (by decide) (by decide) h
  · exact isLine_size (by decide) (by decide) h
  · exact isLine_size (by decide) (by decide) h
  · exact isLine_plain hproperty h

end Rule

theorem RuleGroup.isLine_text_iff (g : RuleGroup) :
    IsLine g.text ↔ IsLine g.selector ∧ ∀ rule ∈ g.rules, IsLine rule := by
  have hopen : IsLine " \x7b " := by decide
  have hclose : IsLine " \x7d" := by decide
  simp only [RuleGroup.text, isLine_append, hopen, hclose, and_true]
  rw [isLine_intercalate (by decide)]

end GridCss
