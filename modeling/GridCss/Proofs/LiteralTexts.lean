import Mathlib.Computability.Language
import GridCss.Number.Literal

/-!
# Texts of literals

The texts of decimal literals form a regular language. Scanning takes the longest text of the
language at the head of a text. A literal ends in a digit or in its point, so that it is taken as a
whole where neither of them follows.
-/

namespace GridCss.Literal

open scoped Computability

/-- `[0-9]` -/
def digit : Language Char := {cs | ∃ c, isDigit c ∧ cs = [c]}

/-- `[0-9]+` -/
def digits : Language Char := digit * digit∗

/-- `[0-9]+(\.[0-9]*)?|\.[0-9]+` -/
def mantissas : Language Char := digits * (1 + {['.']} * digit∗) + {['.']} * digits

/-- `[+-]` -/
def signs : Language Char := {['+'], ['-']}

/-- `[eE][+-]?[0-9]+` -/
def exponents : Language Char := {['e'], ['E']} * (1 + signs) * digits

/-- `([0-9]+(\.[0-9]*)?|\.[0-9]+)([eE][+-]?[0-9]+)?` -/
def texts : Language Char := mantissas * (1 + exponents)

/-- All characters are digits. -/
def AreDigits (cs : List Char) : Prop := ∀ c ∈ cs, isDigit c

/-- The ways to write whole digits and fraction digits; the point may be left out with an empty
fraction. -/
inductive SpellsMantissa : List Char → List Char → List Char → Prop where
  | whole {whole : List Char} (digits : AreDigits whole) (nonempty : whole ≠ []) :
      SpellsMantissa whole [] whole
  | point {whole fraction : List Char} (digits : AreDigits whole) (places : AreDigits fraction)
      (nonempty : whole ≠ [] ∨ fraction ≠ []) :
      SpellsMantissa whole fraction (whole ++ '.' :: fraction)

/-- The ways to write an exponent. -/
inductive SpellsExponent : Int → List Char → Prop where
  | unsigned {c : Char} {ds : List Char} (marker : c = 'e' ∨ c = 'E') (digits : AreDigits ds)
      (nonempty : ds ≠ []) : SpellsExponent (Int.ofNat (natOfDigits ds)) (c :: ds)
  | plus {c : Char} {ds : List Char} (marker : c = 'e' ∨ c = 'E') (digits : AreDigits ds)
      (nonempty : ds ≠ []) : SpellsExponent (Int.ofNat (natOfDigits ds)) (c :: '+' :: ds)
  | minus {c : Char} {ds : List Char} (marker : c = 'e' ∨ c = 'E') (digits : AreDigits ds)
      (nonempty : ds ≠ []) : SpellsExponent (-Int.ofNat (natOfDigits ds)) (c :: '-' :: ds)

/-- A text of a literal. Without an exponent in the text it is zero. -/
inductive Spells : Literal → List Char → Prop where
  | plain {whole fraction m : List Char} (mantissa : SpellsMantissa whole fraction m) :
      Spells ⟨whole, fraction, 0⟩ m
  | scientific {whole fraction m x : List Char} {e : Int}
      (mantissa : SpellsMantissa whole fraction m) (exponent : SpellsExponent e x) :
      Spells ⟨whole, fraction, e⟩ (m ++ x)

theorem mem_digit_kstar {cs : List Char} : cs ∈ digit∗ ↔ AreDigits cs := by
  constructor
  · rw [Language.mem_kstar]
    rintro ⟨parts, rfl, hparts⟩ c hc
    obtain ⟨part, hpart, hc⟩ := List.mem_flatten.mp hc
    obtain ⟨d, hd, rfl⟩ := hparts part hpart
    rwa [List.mem_singleton.mp hc]
  · intro h
    refine Language.mem_kstar.mpr ⟨cs.map ([·]), ?_, ?_⟩
    · simp [← List.flatMap_def]
    · intro part hpart
      obtain ⟨c, hc, rfl⟩ := List.mem_map.mp hpart
      exact ⟨c, h c hc, rfl⟩

theorem mem_digits {cs : List Char} : cs ∈ digits ↔ AreDigits cs ∧ cs ≠ [] := by
  rw [digits, Language.mem_mul]
  constructor
  · rintro ⟨_, ⟨c, hc, rfl⟩, ds, hds, rfl⟩
    exact ⟨List.forall_mem_cons.mpr ⟨hc, mem_digit_kstar.mp hds⟩, List.cons_ne_nil c ds⟩
  · rintro ⟨h, hne⟩
    obtain ⟨c, ds, rfl⟩ := List.exists_cons_of_ne_nil hne
    obtain ⟨hc, hds⟩ := List.forall_mem_cons.mp h
    exact ⟨[c], ⟨c, hc, rfl⟩, ds, mem_digit_kstar.mpr hds, rfl⟩

theorem mem_mantissas {cs : List Char} :
    cs ∈ mantissas ↔ ∃ whole fraction, SpellsMantissa whole fraction cs := by
  have hpoint : ∀ p : List Char, p ∈ ({['.']} : Language Char) ↔ p = ['.'] := fun _ => Iff.rfl
  simp only [mantissas, Language.mem_add, Language.mem_mul, Language.mem_one, hpoint, mem_digits,
    mem_digit_kstar]
  constructor
  · rintro (⟨whole, ⟨hwhole, hne⟩, p, rfl | ⟨_, rfl, fraction, hfraction, rfl⟩, rfl⟩ |
      ⟨_, rfl, fraction, ⟨hfraction, hne⟩, rfl⟩)
    · rw [List.append_nil]
      exact ⟨whole, [], .whole hwhole hne⟩
    · exact ⟨whole, fraction, .point hwhole hfraction (.inl hne)⟩
    · exact ⟨[], fraction, .point (List.forall_mem_nil _) hfraction (.inr hne)⟩
  · rintro ⟨whole, fraction, h⟩
    cases h with
    | whole digits nonempty => exact .inl ⟨cs, ⟨digits, nonempty⟩, [], .inl rfl, by simp⟩
    | point digits places nonempty =>
      by_cases hwhole : whole = []
      · subst hwhole
        exact .inr ⟨_, rfl, fraction, ⟨places, by simpa using nonempty⟩, rfl⟩
      · exact .inl ⟨whole, ⟨digits, hwhole⟩, _, .inr ⟨_, rfl, fraction, places, rfl⟩, rfl⟩

theorem mem_signs {cs : List Char} : cs ∈ signs ↔ cs = ['+'] ∨ cs = ['-'] := Iff.rfl

theorem mem_exponents {cs : List Char} : cs ∈ exponents ↔ ∃ e, SpellsExponent e cs := by
  have hmarker : ∀ p : List Char, p ∈ ({['e'], ['E']} : Language Char) ↔ p = ['e'] ∨ p = ['E'] :=
    fun _ => Iff.rfl
  simp only [exponents, Language.mem_add, Language.mem_mul, Language.mem_one, hmarker, mem_signs,
    mem_digits]
  constructor
  · rintro ⟨_, ⟨p, hp, s, hs, rfl⟩, ds, ⟨hds, hne⟩, rfl⟩
    obtain ⟨c, rfl, hc⟩ : ∃ c, p = [c] ∧ (c = 'e' ∨ c = 'E') := by
      rcases hp with rfl | rfl
      · exact ⟨_, rfl, .inl rfl⟩
      · exact ⟨_, rfl, .inr rfl⟩
    rcases hs with rfl | rfl | rfl
    · exact ⟨_, .unsigned hc hds hne⟩
    · exact ⟨_, .plus hc hds hne⟩
    · exact ⟨_, .minus hc hds hne⟩
  · rintro ⟨e, h⟩
    have hsingle : ∀ c, c = 'e' ∨ c = 'E' → [c] = ['e'] ∨ [c] = ['E'] := by simp
    cases h with
    | @unsigned c ds marker digits nonempty =>
      exact ⟨_, ⟨_, hsingle c marker, [], .inl rfl, rfl⟩, ds, ⟨digits, nonempty⟩, rfl⟩
    | @plus c ds marker digits nonempty =>
      exact ⟨_, ⟨_, hsingle c marker, _, .inr (.inl rfl), rfl⟩, ds, ⟨digits, nonempty⟩, rfl⟩
    | @minus c ds marker digits nonempty =>
      exact ⟨_, ⟨_, hsingle c marker, _, .inr (.inr rfl), rfl⟩, ds, ⟨digits, nonempty⟩, rfl⟩

/-- The texts of the language are the texts of literals. -/
theorem mem_texts {cs : List Char} : cs ∈ texts ↔ ∃ l, Spells l cs := by
  simp only [texts, Language.mem_mul, Language.mem_add, Language.mem_one, mem_mantissas,
    mem_exponents]
  constructor
  · rintro ⟨m, ⟨whole, fraction, hm⟩, x, rfl | ⟨e, hx⟩, rfl⟩
    · rw [List.append_nil]
      exact ⟨_, .plain hm⟩
    · exact ⟨_, .scientific hm hx⟩
  · rintro ⟨l, h⟩
    cases h with
    | plain mantissa => exact ⟨cs, ⟨_, _, mantissa⟩, [], .inl rfl, List.append_nil cs⟩
    | scientific mantissa exponent => exact ⟨_, ⟨_, _, mantissa⟩, _, .inr ⟨_, exponent⟩, rfl⟩

section

variable {cs rest : List Char}

theorem areDigits_takeWhile (cs : List Char) : AreDigits (cs.takeWhile isDigit) :=
  List.all_eq_true.mp List.all_takeWhile

theorem scanMantissa_of_point {after : List Char} (h : cs.dropWhile isDigit = '.' :: after)
    (hne : cs.takeWhile isDigit ≠ [] ∨ after.takeWhile isDigit ≠ []) :
    scanMantissa cs = some (⟨cs.takeWhile isDigit, after.takeWhile isDigit, 0⟩,
      after.dropWhile isDigit) := by
  unfold scanMantissa
  rw [h]
  refine if_neg ?_
  rcases hne with hne | hne <;> simp [hne]

theorem scanMantissa_of_whole (h : ∀ after, cs.dropWhile isDigit ≠ '.' :: after)
    (hne : cs.takeWhile isDigit ≠ []) :
    scanMantissa cs = some (⟨cs.takeWhile isDigit, [], 0⟩, cs.dropWhile isDigit) := by
  unfold scanMantissa
  dsimp only
  split
  · next after hafter => exact absurd hafter (h after)
  · exact if_neg (by simp [hne])

theorem spellsMantissa_of_scanMantissa {l : Literal} (h : scanMantissa cs = some (l, rest)) :
    l.exponent = 0 ∧ ∃ m, SpellsMantissa l.whole l.fraction m ∧ cs = m ++ rest := by
  have hcs : cs.takeWhile isDigit ++ cs.dropWhile isDigit = cs := List.takeWhile_append_dropWhile
  unfold scanMantissa at h
  dsimp only at h
  split at h
  · next after hafter =>
    split at h
    · exact absurd h (by simp)
    · next hne =>
      obtain ⟨rfl, rfl⟩ := Prod.mk.inj (Option.some.inj h)
      refine ⟨rfl, _, .point (areDigits_takeWhile cs) (areDigits_takeWhile after) ?_, ?_⟩
      · simpa [Classical.or_iff_not_imp_left] using hne
      · rw [List.append_assoc, List.cons_append, List.takeWhile_append_dropWhile, ← hafter, hcs]
  · split at h
    · exact absurd h (by simp)
    · next hne =>
      obtain ⟨rfl, rfl⟩ := Prod.mk.inj (Option.some.inj h)
      exact ⟨rfl, _, .whole (areDigits_takeWhile cs) (by simpa using hne), hcs.symm⟩

theorem digits_of_scanExponentDigits {n : Nat} (h : scanExponentDigits cs = some (n, rest)) :
    ∃ ds, AreDigits ds ∧ ds ≠ [] ∧ natOfDigits ds = n ∧ cs = ds ++ rest := by
  unfold scanExponentDigits at h
  dsimp only at h
  split at h
  · exact absurd h (by simp)
  · next hne =>
    obtain ⟨rfl, rfl⟩ := Prod.mk.inj (Option.some.inj h)
    exact ⟨_, areDigits_takeWhile cs, by simpa using hne, rfl,
      List.takeWhile_append_dropWhile.symm⟩

theorem spellsExponent_of_scanExponent {e : Int} (h : scanExponent cs = some (e, rest)) :
    ∃ x, SpellsExponent e x ∧ cs = x ++ rest := by
  unfold scanExponent at h
  split at h
  · next c after =>
    split at h
    · next hc =>
      have marker : c = 'e' ∨ c = 'E' := by simpa using hc
      split at h <;> obtain ⟨⟨n, _⟩, hn, heq⟩ := Option.map_eq_some_iff.mp h <;>
        obtain ⟨rfl, rfl⟩ := Prod.mk.inj heq <;>
        obtain ⟨ds, hds, hne, rfl, hcs⟩ := digits_of_scanExponentDigits hn <;> rw [hcs]
      · exact ⟨_, .plus marker hds hne, rfl⟩
      · exact ⟨_, .minus marker hds hne, rfl⟩
      · exact ⟨_, .unsigned marker hds hne, rfl⟩
    · exact absurd h (by simp)
  · exact absurd h (by simp)

/-- What is scanned is a text of the literal. -/
theorem spells_of_scan {l : Literal} (h : scan cs = some (l, rest)) :
    ∃ lexeme, Spells l lexeme ∧ cs = lexeme ++ rest := by
  obtain ⟨⟨⟨whole, fraction, e⟩, after⟩, hm, heq⟩ := Option.map_eq_some_iff.mp h
  obtain ⟨rfl, m, hspells, rfl⟩ := spellsMantissa_of_scanMantissa hm
  dsimp only at heq
  split at heq
  · next e rest' hx =>
    obtain ⟨rfl, rfl⟩ := Prod.mk.inj heq
    obtain ⟨x, hexponent, rfl⟩ := spellsExponent_of_scanExponent hx
    exact ⟨_, .scientific hspells hexponent, (List.append_assoc m x rest').symm⟩
  · obtain ⟨rfl, rfl⟩ := Prod.mk.inj heq
    exact ⟨_, .plain hspells, rfl⟩

theorem takeWhile_digits_of_dropWhile (h : rest.dropWhile isDigit = rest) :
    rest.takeWhile isDigit = [] := by
  have hrest : rest.takeWhile isDigit ++ rest.dropWhile isDigit = rest :=
    List.takeWhile_append_dropWhile
  rw [h] at hrest
  exact List.append_left_eq_self.mp hrest

theorem takeWhile_digits_append_cons {ds : List Char} (h : AreDigits ds) {c : Char}
    (hc : isDigit c = false) (rest : List Char) : (ds ++ c :: rest).takeWhile isDigit = ds := by
  rw [List.takeWhile_append_of_pos h, List.takeWhile_cons_of_neg (by simp [hc]), List.append_nil]

theorem dropWhile_digits_append_cons {ds : List Char} (h : AreDigits ds) {c : Char}
    (hc : isDigit c = false) (rest : List Char) :
    (ds ++ c :: rest).dropWhile isDigit = c :: rest := by
  rw [List.dropWhile_append_of_pos h, List.dropWhile_cons_of_neg (by simp [hc])]

theorem isDigit_point : isDigit '.' = false := by decide

/-- A mantissa is scanned to its end or beyond, and if to its end then as it is. -/
theorem scanMantissa_append {whole fraction m : List Char} (h : SpellsMantissa whole fraction m)
    (rest : List Char) :
    ∃ l rest', scanMantissa (m ++ rest) = some (l, rest') ∧ rest' <:+ rest ∧
      (rest' = rest → l = ⟨whole, fraction, 0⟩) := by
  cases h with
  | whole digits nonempty =>
    have htake : (whole ++ rest).takeWhile isDigit = whole ++ rest.takeWhile isDigit :=
      List.takeWhile_append_of_pos digits
    have hdrop : (whole ++ rest).dropWhile isDigit = rest.dropWhile isDigit :=
      List.dropWhile_append_of_pos digits
    have hsuffix : rest.dropWhile isDigit <:+ rest := List.dropWhile_suffix isDigit
    have hne : (whole ++ rest).takeWhile isDigit ≠ [] := by simp [htake, nonempty]
    by_cases hpoint : ∃ after, rest.dropWhile isDigit = '.' :: after
    · -- The point that follows belongs to the mantissa, so that more than the given text is taken.
      obtain ⟨after, hafter⟩ := hpoint
      rw [hafter] at hdrop hsuffix
      have hrest : after.dropWhile isDigit <:+ after := List.dropWhile_suffix isDigit
      refine ⟨_, _, scanMantissa_of_point hdrop (.inl hne),
        hrest.trans ((List.suffix_cons '.' after).trans hsuffix), fun heq => ?_⟩
      have hlength := hsuffix.length_le.trans (heq ▸ hrest.length_le)
      exact absurd hlength (by simp)
    · rw [← hdrop, not_exists] at hpoint
      refine ⟨_, _, scanMantissa_of_whole hpoint hne, hdrop ▸ hsuffix, fun heq => ?_⟩
      rw [hdrop] at heq
      rw [htake, takeWhile_digits_of_dropWhile heq, List.append_nil]
  | point digits places nonempty =>
    rw [List.append_assoc, List.cons_append]
    have htake := takeWhile_digits_append_cons digits isDigit_point (fraction ++ rest)
    have hdrop := dropWhile_digits_append_cons digits isDigit_point (fraction ++ rest)
    have hplaces : (fraction ++ rest).takeWhile isDigit = fraction ++ rest.takeWhile isDigit :=
      List.takeWhile_append_of_pos places
    have hne : whole ≠ [] ∨ (fraction ++ rest).takeWhile isDigit ≠ [] :=
      nonempty.imp_right fun h => by simp [hplaces, h]
    refine ⟨_, _, scanMantissa_of_point hdrop (htake.symm ▸ hne), ?_, fun heq => ?_⟩
    · rw [List.dropWhile_append_of_pos places]
      exact List.dropWhile_suffix isDigit
    · rw [List.dropWhile_append_of_pos places] at heq
      rw [htake, hplaces, takeWhile_digits_of_dropWhile heq, List.append_nil]

/-- The marker of an exponent ends a mantissa. -/
theorem scanMantissa_append_marker {whole fraction m : List Char}
    (h : SpellsMantissa whole fraction m) {c : Char} (hc : c = 'e' ∨ c = 'E') (rest : List Char) :
    scanMantissa (m ++ c :: rest) = some (⟨whole, fraction, 0⟩, c :: rest) := by
  have hdigit : isDigit c = false := by rcases hc with rfl | rfl <;> decide
  cases h with
  | whole digits nonempty =>
    have htake := takeWhile_digits_append_cons digits hdigit rest
    have hdrop := dropWhile_digits_append_cons digits hdigit rest
    have hpoint : ∀ after, (whole ++ c :: rest).dropWhile isDigit ≠ '.' :: after := by
      rw [hdrop]
      rcases hc with rfl | rfl <;> simp
    rw [scanMantissa_of_whole hpoint (by rwa [htake]), htake, hdrop]
  | point digits places nonempty =>
    have htake := takeWhile_digits_append_cons digits isDigit_point (fraction ++ c :: rest)
    have hdrop := dropWhile_digits_append_cons digits isDigit_point (fraction ++ c :: rest)
    have hplaces := takeWhile_digits_append_cons places hdigit rest
    rw [List.append_assoc, List.cons_append,
      scanMantissa_of_point hdrop (by rwa [htake, hplaces]), htake, hplaces,
      dropWhile_digits_append_cons places hdigit]

theorem scanExponentDigits_append {ds : List Char} (h : AreDigits ds) (hne : ds ≠ [])
    (rest : List Char) :
    ∃ n rest', scanExponentDigits (ds ++ rest) = some (n, rest') ∧ rest' <:+ rest ∧
      (rest' = rest → n = natOfDigits ds) := by
  unfold scanExponentDigits
  rw [List.takeWhile_append_of_pos h, List.dropWhile_append_of_pos h]
  refine ⟨_, _, if_neg (by simp [hne]), List.dropWhile_suffix isDigit, fun heq => ?_⟩
  rw [takeWhile_digits_of_dropWhile heq, List.append_nil]

/-- An exponent is scanned to its end or beyond, and if to its end then as it is. -/
theorem scanExponent_append {e : Int} {x : List Char} (h : SpellsExponent e x) (rest : List Char) :
    ∃ e' rest', scanExponent (x ++ rest) = some (e', rest') ∧ rest' <:+ rest ∧
      (rest' = rest → e' = e) := by
  cases h with
  | @unsigned c ds marker digits nonempty =>
    obtain ⟨n, rest', hn, hsuffix, heq⟩ := scanExponentDigits_append digits nonempty rest
    refine ⟨Int.ofNat n, rest', ?_, hsuffix, fun h => by rw [heq h]⟩
    -- A digit is no sign.
    obtain ⟨d, ds, rfl⟩ := List.exists_cons_of_ne_nil nonempty
    have hd : isDigit d = true := digits d List.mem_cons_self
    have hplus : d ≠ '+' := by rintro rfl; exact absurd hd (by decide)
    have hminus : d ≠ '-' := by rintro rfl; exact absurd hd (by decide)
    rw [List.cons_append] at hn ⊢
    simp [scanExponent, marker, hplus, hminus, hn]
  | @plus c ds marker digits nonempty =>
    obtain ⟨n, rest', hn, hsuffix, heq⟩ := scanExponentDigits_append digits nonempty rest
    refine ⟨Int.ofNat n, rest', ?_, hsuffix, fun h => by rw [heq h]⟩
    simp [scanExponent, marker, hn]
  | @minus c ds marker digits nonempty =>
    obtain ⟨n, rest', hn, hsuffix, heq⟩ := scanExponentDigits_append digits nonempty rest
    refine ⟨-Int.ofNat n, rest', ?_, hsuffix, fun h => by rw [heq h]⟩
    simp [scanExponent, marker, hn]

theorem SpellsExponent.exists_cons {e : Int} {x : List Char} (h : SpellsExponent e x) :
    ∃ c x', x = c :: x' ∧ (c = 'e' ∨ c = 'E') := by
  cases h with
  | unsigned marker => exact ⟨_, _, rfl, marker⟩
  | plus marker => exact ⟨_, _, rfl, marker⟩
  | minus marker => exact ⟨_, _, rfl, marker⟩

/-- A literal is scanned to its end or beyond, and if to its end then as it is. -/
theorem scan_append {l : Literal} {lexeme : List Char} (h : Spells l lexeme) (rest : List Char) :
    ∃ l' rest', scan (lexeme ++ rest) = some (l', rest') ∧ rest' <:+ rest ∧
      (rest' = rest → l' = l) := by
  cases h with
  | plain mantissa =>
    obtain ⟨l', after, hm, hafter, heq⟩ := scanMantissa_append mantissa rest
    cases hx : scanExponent after with
    | none => exact ⟨l', after, by simp [scan, hm, hx], hafter, heq⟩
    | some found =>
      obtain ⟨e, rest'⟩ := found
      have hscan : scan (lexeme ++ rest) = some ({ l' with exponent := e }, rest') := by
        simp [scan, hm, hx]
      obtain ⟨x, hexponent, rfl⟩ := spellsExponent_of_scanExponent hx
      refine ⟨_, rest', hscan, (List.suffix_append x rest').trans hafter, ?_⟩
      rintro rfl
      -- An exponent is not empty, so that more than the given text is taken.
      obtain ⟨c, x, rfl, -⟩ := hexponent.exists_cons
      have hlength := hafter.length_le
      simp only [List.length_append, List.length_cons] at hlength
      omega
  | @scientific whole fraction m x e mantissa exponent =>
    obtain ⟨e', rest', hx, hsuffix, heq⟩ := scanExponent_append exponent rest
    obtain ⟨c, x, rfl, hc⟩ := exponent.exists_cons
    have hm := scanMantissa_append_marker mantissa hc (x ++ rest)
    rw [List.cons_append] at hx
    refine ⟨⟨whole, fraction, e'⟩, rest', ?_, hsuffix, fun h => by rw [heq h]⟩
    rw [List.append_assoc, List.cons_append]
    simp [scan, hm, hx]

/-- Scanning takes the longest text of a literal at the head of a text. -/
theorem scan_eq_some_iff {l : Literal} :
    scan cs = some (l, rest) ↔
      ∃ lexeme, cs = lexeme ++ rest ∧ Spells l lexeme ∧
        ∀ longer ∈ texts, longer <+: cs → longer.length ≤ lexeme.length := by
  constructor
  · intro h
    obtain ⟨lexeme, hspells, rfl⟩ := spells_of_scan h
    refine ⟨lexeme, rfl, hspells, fun longer hlonger ⟨rest', heq⟩ => ?_⟩
    obtain ⟨l', hl'⟩ := mem_texts.mp hlonger
    obtain ⟨_, _, hscan, hsuffix, -⟩ := scan_append hl' rest'
    rw [heq, h] at hscan
    obtain ⟨-, rfl⟩ := Prod.mk.inj (Option.some.inj hscan)
    have hlength := hsuffix.length_le
    have hsum := congrArg List.length heq
    simp only [List.length_append] at hsum
    omega
  · rintro ⟨lexeme, rfl, hspells, hlongest⟩
    obtain ⟨l', rest', hscan, hsuffix, heq⟩ := scan_append hspells rest
    obtain ⟨lexeme', hspells', hcs⟩ := spells_of_scan hscan
    have hlength := hlongest lexeme' (mem_texts.mpr ⟨l', hspells'⟩) ⟨rest', hcs.symm⟩
    have hsum := congrArg List.length hcs
    simp only [List.length_append] at hsum
    obtain rfl := hsuffix.eq_of_length_le (by omega)
    rw [hscan, heq rfl]

theorem SpellsMantissa.exists_cons {whole fraction m : List Char}
    (h : SpellsMantissa whole fraction m) : ∃ c m', m = c :: m' ∧ (isDigit c ∨ c = '.') := by
  cases h with
  | whole digits nonempty =>
    obtain ⟨c, m', rfl⟩ := List.exists_cons_of_ne_nil nonempty
    exact ⟨c, m', rfl, .inl (digits c List.mem_cons_self)⟩
  | point digits places nonempty =>
    cases whole with
    | nil => exact ⟨_, _, rfl, .inr rfl⟩
    | cons c whole => exact ⟨c, _, rfl, .inl (digits c List.mem_cons_self)⟩

/-- A literal starts with a digit or with its point. -/
theorem Spells.exists_cons {l : Literal} (h : Spells l cs) :
    ∃ c cs', cs = c :: cs' ∧ (isDigit c ∨ c = '.') := by
  cases h with
  | plain mantissa => exact mantissa.exists_cons
  | scientific mantissa exponent =>
    obtain ⟨c, m, rfl, hc⟩ := mantissa.exists_cons
    exact ⟨c, _, rfl, hc⟩

/-- A literal ends in a digit or in its point. -/
theorem Spells.exists_append {l : Literal} (h : Spells l cs) :
    ∃ front tail, cs = front ++ tail ∧ tail ≠ [] ∧ ∀ c ∈ tail, isDigit c ∨ c = '.' := by
  have hdigits : ∀ {ds : List Char}, AreDigits ds → ∀ c ∈ ds, isDigit c ∨ c = '.' :=
    fun h c hc => .inl (h c hc)
  cases h with
  | plain mantissa =>
    cases mantissa with
    | whole digits nonempty => exact ⟨[], cs, rfl, nonempty, hdigits digits⟩
    | point digits places nonempty =>
      exact ⟨_, _, rfl, List.cons_ne_nil _ _, List.forall_mem_cons.mpr ⟨.inr rfl, hdigits places⟩⟩
  | @scientific whole fraction m x e mantissa exponent =>
    cases exponent with
    | @unsigned c ds marker digits nonempty =>
      exact ⟨m ++ [c], ds, by simp, nonempty, hdigits digits⟩
    | @plus c ds marker digits nonempty =>
      exact ⟨m ++ [c, '+'], ds, by simp, nonempty, hdigits digits⟩
    | @minus c ds marker digits nonempty =>
      exact ⟨m ++ [c, '-'], ds, by simp, nonempty, hdigits digits⟩

theorem Spells.getLast {l : Literal} (h : Spells l cs) (hne : cs ≠ []) :
    isDigit (cs.getLast hne) ∨ cs.getLast hne = '.' := by
  obtain ⟨front, tail, rfl, htail, hends⟩ := h.exists_append
  rw [List.getLast_append_of_ne_nil _ htail]
  exact hends _ (List.getLast_mem htail)

/-- A literal is taken as a whole if no digit and no point follows. -/
theorem scan_append_of_forall {l : Literal} {lexeme : List Char} (h : Spells l lexeme)
    (hrest : ∀ c ∈ rest, isDigit c = false ∧ c ≠ '.') : scan (lexeme ++ rest) = some (l, rest) := by
  obtain ⟨l', rest', hscan, ⟨more, rfl⟩, heq⟩ := scan_append h rest
  obtain ⟨lexeme', hspells, hcs⟩ := spells_of_scan hscan
  rw [← List.append_assoc] at hcs
  obtain rfl := List.append_cancel_right hcs
  by_cases hmore : more = []
  · subst hmore
    rw [hscan, heq rfl, List.nil_append]
  · -- What is taken beyond the literal would have to end like one.
    have hlast := hspells.getLast (by simp [hmore])
    rw [List.getLast_append_of_ne_nil _ hmore] at hlast
    have hc := hrest _ (List.mem_append_left rest' (List.getLast_mem hmore))
    rw [hc.1] at hlast
    exact absurd hlast (by simp [hc.2])

end

end GridCss.Literal
