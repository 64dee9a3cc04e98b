import GridCss.Proofs.LiteralTexts
import GridCss.Value.Scalar

/-!
# Numeric text

Numeric text is a signed literal followed by a unit or by nothing. No unit holds a digit or a point,
so that the literal ends where the last of them stands, and a text can be cut in one way only. A
search for the unit at the end of the text finds the same cut, as no unit ends in one that is tried
before it.
-/

namespace GridCss

open scoped Computability

namespace Literal

/-- `[+-]?([0-9]+(\.[0-9]*)?|\.[0-9]+)([eE][+-]?[0-9]+)?` -/
def signedTexts : Language Char := (1 + signs) * texts

/-- The number that a signed literal is read as. -/
inductive Reads : List Char → Float → Prop where
  | unsigned {l : Literal} {cs : List Char} (literal : Spells l cs) : Reads cs l.toFloat
  | plus {l : Literal} {cs : List Char} (literal : Spells l cs) : Reads ('+' :: cs) l.toFloat
  | minus {l : Literal} {cs : List Char} (literal : Spells l cs) : Reads ('-' :: cs) (-l.toFloat)

theorem mem_signedTexts {cs : List Char} : cs ∈ signedTexts ↔ ∃ x, Reads cs x := by
  simp only [signedTexts, Language.mem_mul, Language.mem_add, Language.mem_one, mem_signs,
    mem_texts]
  constructor
  · rintro ⟨_, rfl | rfl | rfl, cs, ⟨l, hl⟩, rfl⟩
    · exact ⟨_, .unsigned hl⟩
    · exact ⟨_, .plus hl⟩
    · exact ⟨_, .minus hl⟩
  · rintro ⟨x, h⟩
    cases h with
    | unsigned literal => exact ⟨[], .inl rfl, cs, ⟨_, literal⟩, rfl⟩
    | plus literal => exact ⟨_, .inr (.inl rfl), _, ⟨_, literal⟩, rfl⟩
    | minus literal => exact ⟨_, .inr (.inr rfl), _, ⟨_, literal⟩, rfl⟩

theorem reads_of_scanSigned {cs rest : List Char} {x : Float}
    (h : scanSigned cs = some (x, rest)) : ∃ lit, Reads lit x ∧ cs = lit ++ rest := by
  unfold scanSigned at h
  split at h <;> obtain ⟨⟨l, after⟩, hscan, heq⟩ := Option.map_eq_some_iff.mp h <;>
    obtain ⟨rfl, rfl⟩ := Prod.mk.inj heq <;>
    obtain ⟨lexeme, hspells, rfl⟩ := spells_of_scan hscan
  · exact ⟨_, .plus hspells, rfl⟩
  · exact ⟨_, .minus hspells, rfl⟩
  · exact ⟨_, .unsigned hspells, rfl⟩

theorem scanSigned_eq_scan {c : Char} (h : isDigit c ∨ c = '.') (cs : List Char) :
    scanSigned (c :: cs) = (scan (c :: cs)).map fun (l, rest) => (l.toFloat, rest) := by
  unfold scanSigned
  split
  · next heq =>
    obtain ⟨rfl, -⟩ := List.cons.inj heq
    exact absurd h (by decide)
  · next heq =>
    obtain ⟨rfl, -⟩ := List.cons.inj heq
    exact absurd h (by decide)
  · rfl

/-- A signed literal is taken as a whole if no digit and no point follows. -/
theorem Reads.scanSigned_append {lit rest : List Char} {x : Float} (h : Reads lit x)
    (hrest : ∀ c ∈ rest, isDigit c = false ∧ c ≠ '.') :
    scanSigned (lit ++ rest) = some (x, rest) := by
  cases h with
  | unsigned literal =>
    have hscan := scan_append_of_forall literal hrest
    obtain ⟨c, cs, rfl, hc⟩ := literal.exists_cons
    rw [List.cons_append] at hscan ⊢
    rw [scanSigned_eq_scan hc, hscan, Option.map_some]
  | plus literal => simp [scanSigned, scan_append_of_forall literal hrest]
  | minus literal => simp [scanSigned, scan_append_of_forall literal hrest]

/-- A signed literal ends in a digit or in its point. -/
theorem Reads.getLast {lit : List Char} {x : Float} (h : Reads lit x) :
    ∃ hne : lit ≠ [], isDigit (lit.getLast hne) ∨ lit.getLast hne = '.' := by
  have hsigned : ∀ (c : Char) {l : Literal} {cs : List Char} (_ : Spells l cs),
      isDigit ((c :: cs).getLast (List.cons_ne_nil c cs)) ∨
        (c :: cs).getLast (List.cons_ne_nil c cs) = '.' := by
    intro c l cs hspells
    obtain ⟨d, cs, rfl, -⟩ := hspells.exists_cons
    rw [List.getLast_cons (List.cons_ne_nil d cs)]
    exact hspells.getLast _
  cases h with
  | unsigned literal =>
    obtain ⟨c, cs, rfl, -⟩ := literal.exists_cons
    exact ⟨List.cons_ne_nil c cs, literal.getLast _⟩
  | plus literal => exact ⟨List.cons_ne_nil _ _, hsigned '+' literal⟩
  | minus literal => exact ⟨List.cons_ne_nil _ _, hsigned '-' literal⟩

end Literal

namespace Measure

theorem ofText?_eq_some_iff {t : String} {m : Measure} : ofText? t = some m ↔ m.text = t := by
  constructor
  · intro h
    simpa using List.find?_some h
  · rintro rfl
    cases m <;> rfl

theorem text_ne_nil (m : Measure) : m.text.toList ≠ [] := by
  cases m <;> decide

theorem chars_text (m : Measure) : ∀ c ∈ m.text.toList, Literal.isDigit c = false ∧ c ≠ '.' := by
  have hall : m.text.toList.all (fun c => !Literal.isDigit c && c != '.') = true := by
    cases m <;> decide
  intro c hc
  simpa using List.all_eq_true.mp hall c hc

/-- The units in an order in which none is found at the end of a later one. -/
def bySuffix : List Measure :=
  [vmax, vmin, rem, deg, cm, fr, em, ex, inch, mm, pc, pt, px, vh, vw, ms, percent, s]

/-- The first unit that a text ends in, and what stands before it. -/
def split? (cs : List Char) : Option (List Char × Measure) :=
  bySuffix.findSome? fun m => (m.text.toList.isSuffixOf? cs).map fun front => (front, m)

theorem bySuffix_pairwise : bySuffix.Pairwise fun m m' => ¬ m.text.toList <:+ m'.text.toList := by
  decide

theorem mem_bySuffix (m : Measure) : m ∈ bySuffix := by cases m <;> decide

/-- Behind a digit or a point the unit is found that stands there. -/
theorem split?_append {lit : List Char} (hne : lit ≠ [])
    (hlast : Literal.isDigit (lit.getLast hne) ∨ lit.getLast hne = '.') (m : Measure) :
    split? (lit ++ m.text.toList) = some (lit, m) := by
  obtain ⟨before, after, heq⟩ := List.append_of_mem (mem_bySuffix m)
  have hpairwise := bySuffix_pairwise
  rw [heq, List.pairwise_append] at hpairwise
  refine List.findSome?_eq_some_iff.mpr ⟨before, m, after, heq, ?_, fun m' hm' => ?_⟩
  · rw [List.isSuffixOf?_eq_some_iff_append_eq.mpr rfl, Option.map_some]
  · have hends : ¬ m'.text.toList <:+ m.text.toList := hpairwise.2.2 m' hm' m List.mem_cons_self
    refine Option.map_eq_none_iff.mpr (Option.eq_none_iff_forall_ne_some.mpr fun front hfront => ?_)
    rcases List.append_eq_append_iff.mp (List.isSuffixOf?_eq_some_iff_append_eq.mp hfront) with
      ⟨tail, rfl, htail⟩ | ⟨tail, -, htail⟩
    · by_cases htail' : tail = []
      · rw [htail, htail'] at hends
        exact hends (List.suffix_refl _)
      · -- A longer unit would hold the end of the literal.
        rw [List.getLast_append_of_ne_nil _ htail'] at hlast
        have hchar := m'.chars_text (tail.getLast htail')
          (htail ▸ List.mem_append_left _ (List.getLast_mem htail'))
        rw [hchar.1] at hlast
        exact absurd hlast (by simp [hchar.2])
    · exact hends ⟨tail, htail.symm⟩

end Measure

namespace Scalar

/-- The text of a unit, if there is one. -/
def unitText : Option Measure → List Char
  | none => []
  | some m => m.text.toList

/-- Without the blanks around it, the text is a signed literal and a unit or nothing. -/
structure Splits (text : String) (lit : List Char) (unit : Option Measure) : Prop where
  literal : lit ∈ Literal.signedTexts
  eq : (Text.trim text).toList = lit ++ unitText unit

theorem chars_unitText (unit : Option Measure) :
    ∀ c ∈ unitText unit, Literal.isDigit c = false ∧ c ≠ '.' := by
  cases unit with
  | none => exact List.forall_mem_nil _
  | some m => exact m.chars_text

/-- A text that is cut into literal and unit is read so. -/
theorem parse_of_reads {text : String} {lit : List Char} {unit : Option Measure} {x : Float}
    (hreads : Literal.Reads lit x) (heq : (Text.trim text).toList = lit ++ unitText unit) :
    parse text = some ⟨x, unit⟩ := by
  have hscan := hreads.scanSigned_append (chars_unitText unit)
  rw [parse, heq, hscan]
  cases unit with
  | none => rfl
  | some m =>
    obtain ⟨c, rest, htext⟩ := List.exists_cons_of_ne_nil m.text_ne_nil
    rw [unitText, htext]
    dsimp only
    rw [← htext, String.ofList_toList, Measure.ofText?_eq_some_iff.mpr rfl, Option.map_some]

theorem exists_reads_of_parse {text : String} {scalar : Scalar} (h : parse text = some scalar) :
    ∃ lit, Literal.Reads lit scalar.value ∧
      (Text.trim text).toList = lit ++ unitText scalar.unit := by
  unfold parse at h
  split at h
  · next x hscan =>
    obtain rfl := Option.some.inj h
    exact Literal.reads_of_scanSigned hscan
  · next x rest hne hscan =>
    obtain ⟨m, hm, rfl⟩ := Option.map_eq_some_iff.mp h
    obtain ⟨lit, hreads, heq⟩ := Literal.reads_of_scanSigned hscan
    refine ⟨lit, hreads, ?_⟩
    rw [heq, unitText, Measure.ofText?_eq_some_iff.mp hm, String.toList_ofList]
  · exact absurd h (by simp)

/-- A text is cut into literal and unit in one way at most. -/
theorem Splits.unique {text : String} {lit lit' : List Char} {unit unit' : Option Measure}
    (h : Splits text lit unit) (h' : Splits text lit' unit') : lit' = lit ∧ unit' = unit := by
  obtain ⟨x, hx⟩ := Literal.mem_signedTexts.mp h.literal
  obtain ⟨x', hx'⟩ := Literal.mem_signedTexts.mp h'.literal
  have hparse := (parse_of_reads hx h.eq).symm.trans (parse_of_reads hx' h'.eq)
  obtain ⟨rfl, rfl⟩ := Scalar.mk.inj (Option.some.inj hparse)
  exact ⟨List.append_cancel_right (h'.eq.symm.trans h.eq), rfl⟩

/-- Text without unit is read as a number. -/
theorem parseNumber_eq_some_iff {text : String} {n : Float} :
    parseNumber text = some n ↔ parse text = some ⟨n, none⟩ := by
  unfold parseNumber parse
  rcases Literal.scanSigned (Text.trim text).toList with _ | ⟨x, _ | ⟨c, rest⟩⟩
  · simp
  · simp
  · simp

/-- Text is numeric exactly if it is a signed literal followed by a unit or by nothing. There is one
way only to cut it so; its value is the number that the literal is read as and its unit the one that
follows, which is also found at the end of the text. A number is read exactly if there is no
unit. -/
theorem parse_classifies_numeric_text (text : String) :
    ((parse text).isSome ↔ ∃ lit unit, Splits text lit unit) ∧
    (∀ lit unit, Splits text lit unit →
      (∀ lit' unit', Splits text lit' unit' → lit' = lit ∧ unit' = unit) ∧
      (∀ x, parse text = some ⟨x, unit⟩ ↔ Literal.Reads lit x) ∧
      (∀ m, unit = some m → Measure.split? (Text.trim text).toList = some (lit, m))) ∧
    ∀ n, parseNumber text = some n ↔ parse text = some ⟨n, none⟩ := by
  refine ⟨⟨fun h => ?_, ?_⟩, fun lit unit hsplits => ⟨?_, fun x => ⟨fun h => ?_, ?_⟩, ?_⟩,
    fun n => parseNumber_eq_some_iff⟩
  · obtain ⟨scalar, hscalar⟩ := Option.isSome_iff_exists.mp h
    obtain ⟨lit, hreads, heq⟩ := exists_reads_of_parse hscalar
    exact ⟨lit, scalar.unit, Literal.mem_signedTexts.mpr ⟨_, hreads⟩, heq⟩
  · rintro ⟨lit, unit, hsplits⟩
    obtain ⟨x, hx⟩ := Literal.mem_signedTexts.mp hsplits.literal
    rw [parse_of_reads hx hsplits.eq]
    rfl
  · exact fun lit' unit' => hsplits.unique
  · obtain ⟨lit', hreads, heq⟩ := exists_reads_of_parse h
    obtain ⟨rfl, -⟩ := hsplits.unique ⟨Literal.mem_signedTexts.mpr ⟨_, hreads⟩, heq⟩
    exact hreads
  · exact fun hreads => parse_of_reads hreads hsplits.eq
  · rintro m rfl
    obtain ⟨x, hx⟩ := Literal.mem_signedTexts.mp hsplits.literal
    obtain ⟨hne, hlast⟩ := hx.getLast
    rw [hsplits.eq]
    exact Measure.split?_append hne hlast m

/-- The `e` of an exponent and the `e` of a unit. -/
theorem parse_classifies_numeric_text_exponent :
    Splits " 1e3em " ['1', 'e', '3'] (some .em) ∧
      parse " 1e3em " = some ⟨Literal.toFloat ⟨['1'], [], 3⟩, some .em⟩ := by
  have hdigit : ∀ d : Char, Literal.isDigit d → Literal.AreDigits [d] :=
    fun d hd => List.forall_mem_singleton.mpr hd
  have hmantissa : Literal.SpellsMantissa ['1'] [] ['1'] :=
    .whole (hdigit '1' (by decide)) (List.cons_ne_nil _ _)
  have hexponent : Literal.SpellsExponent 3 ['e', '3'] :=
    .unsigned (.inl rfl) (hdigit '3' (by decide)) (List.cons_ne_nil _ _)
  have hreads : Literal.Reads ['1', 'e', '3'] (Literal.toFloat ⟨['1'], [], 3⟩) :=
    .unsigned (.scientific hmantissa hexponent)
  have hsplits : Splits " 1e3em " ['1', 'e', '3'] (some .em) :=
    ⟨Literal.mem_signedTexts.mpr ⟨_, hreads⟩, rfl⟩
  have hclassified := (parse_classifies_numeric_text " 1e3em ").2.1 _ _ hsplits
  exact ⟨hsplits, (hclassified.2.1 _).mpr hreads⟩

end Scalar

end GridCss
