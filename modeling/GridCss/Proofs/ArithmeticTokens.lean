import GridCss.Arithmetic.Token
import GridCss.Proofs.LiteralTexts

/-!
# The tokens of a text

A text is cut into tokens from the left: blanks are skipped, and otherwise the longest text of a
token is taken. This leads to the end of the text or to a character that no token starts with, and
tokens are found in the first case only.
-/

namespace GridCss.Arithmetic

namespace Token

/-- The texts of a token. -/
inductive Spells : Token → List Char → Prop where
  | number {l : Literal} {cs : List Char} (literal : l.Spells cs) : Spells (.number l.toFloat) cs
  | plus : Spells .plus ['+']
  | minus : Spells .minus ['-']
  | star : Spells .star ['*']
  | slash : Spells .slash ['/']
  | percent : Spells .percent ['%']
  | opening : Spells .opening ['(']
  | closing : Spells .closing [')']

/-- A token with its text, where no longer text of a token stands at the same place. -/
structure IsLongest (t : Token) (lexeme after : List Char) : Prop where
  spells : t.Spells lexeme
  length_le : ∀ {t' longer}, Spells t' longer → longer <+: lexeme ++ after →
    longer.length ≤ lexeme.length

end Token

/-- The tokens at the head of a text, and what follows them. -/
inductive Lexes : List Char → List Token → List Char → Prop where
  | done (rest : List Char) : Lexes rest [] rest
  | blank {c : Char} {cs rest : List Char} {ts : List Token} (h : Text.isBlank c)
      (more : Lexes cs ts rest) : Lexes (c :: cs) ts rest
  | token {t : Token} {lexeme after rest : List Char} {ts : List Token}
      (first : t.IsLongest lexeme after) (more : Lexes after ts rest) :
      Lexes (lexeme ++ after) (t :: ts) rest

/-- A text that starts with neither a blank nor a token. -/
def IsStuck (cs : List Char) : Prop :=
  ∃ c rest, cs = c :: rest ∧ Text.isBlank c = false ∧
    ∀ t lexeme, Token.Spells t lexeme → ¬ lexeme <+: cs

theorem isBlank_of_isDigit_or_point {c : Char} (h : Literal.isDigit c ∨ c = '.') :
    Text.isBlank c = false := by
  rcases h with h | rfl
  · have hdigit : c.isDigit = true := h
    exact Text.isBlank_of_isNameChar (by simp [Text.isNameChar, Char.isAlphanum, hdigit])
  · decide

theorem ofChar?_of_isDigit_or_point {c : Char} (h : Literal.isDigit c ∨ c = '.') :
    Token.ofChar? c = none := by
  unfold Token.ofChar?
  split
  all_goals first | rfl | exact absurd h (by decide)

theorem Token.spells_of_ofChar? {c : Char} {t : Token} (h : ofChar? c = some t) :
    Spells t [c] := by
  unfold ofChar? at h
  split at h <;> cases h <;> constructor

/-- A token other than a number has a text of one character. -/
theorem Token.Spells.number_or_symbol {t : Token} {lexeme : List Char} (h : Spells t lexeme) :
    (∃ l : Literal, t = .number l.toFloat ∧ l.Spells lexeme) ∨
      ∃ c, lexeme = [c] ∧ ofChar? c = some t ∧ Text.isBlank c = false := by
  cases h with
  | number literal => exact .inl ⟨_, rfl, literal⟩
  | _ => exact .inr ⟨_, rfl, rfl, by decide⟩

theorem Token.Spells.ne_nil {t : Token} {lexeme : List Char} (h : Spells t lexeme) :
    lexeme ≠ [] := by
  obtain ⟨l, -, hl⟩ | ⟨c, rfl, -⟩ := h.number_or_symbol
  · obtain ⟨c, rest, rfl, -⟩ := hl.exists_cons
    exact List.cons_ne_nil c rest
  · exact List.cons_ne_nil c []

section

variable {c : Char} {rest : List Char}

theorem tokens?_nil : tokens? [] = some [] := by
  rw [tokens?]

theorem tokens?_blank (h : Text.isBlank c) : tokens? (c :: rest) = tokens? rest := by
  rw [tokens?, if_pos h]

theorem tokens?_symbol {t : Token} (hblank : Text.isBlank c = false)
    (h : Token.ofChar? c = some t) : tokens? (c :: rest) = (tokens? rest).map (t :: ·) := by
  rw [tokens?, if_neg (by simp [hblank]), h]

theorem tokens?_number {l : Literal} {after : List Char} (hblank : Text.isBlank c = false)
    (hsymbol : Token.ofChar? c = none) (h : Literal.scan (c :: rest) = some (l, after)) :
    tokens? (c :: rest) = (tokens? after).map (.number l.toFloat :: ·) := by
  rw [tokens?, if_neg (by simp [hblank]), hsymbol]
  dsimp only
  split
  · next l' after' h' =>
    obtain ⟨rfl, rfl⟩ := Prod.mk.inj (Option.some.inj (h.symm.trans h'))
    rfl
  · next h' => exact absurd (h.symm.trans h') (by simp)

theorem tokens?_of_scan_eq_none (hblank : Text.isBlank c = false)
    (hsymbol : Token.ofChar? c = none) (h : Literal.scan (c :: rest) = none) :
    tokens? (c :: rest) = none := by
  rw [tokens?, if_neg (by simp [hblank]), hsymbol]
  dsimp only
  split
  · next h' => exact absurd (h.symm.trans h') (by simp)
  · rfl

end

/-- The longest token at the head of a text is the one that is found. -/
theorem tokens?_of_isLongest {t : Token} {lexeme after : List Char} (h : t.IsLongest lexeme after) :
    tokens? (lexeme ++ after) = (tokens? after).map (t :: ·) := by
  obtain ⟨l, rfl, hl⟩ | ⟨c, rfl, hc, hblank⟩ := h.spells.number_or_symbol
  · have hscan : Literal.scan (lexeme ++ after) = some (l, after) := by
      refine Literal.scan_eq_some_iff.mpr ⟨lexeme, rfl, hl, fun longer hlonger => ?_⟩
      obtain ⟨l', hl'⟩ := Literal.mem_texts.mp hlonger
      exact h.length_le (.number hl')
    obtain ⟨c, rest, rfl, hc⟩ := hl.exists_cons
    exact tokens?_number (isBlank_of_isDigit_or_point hc) (ofChar?_of_isDigit_or_point hc) hscan
  · exact tokens?_symbol hblank hc

/-- A symbol is the longest token where it stands. -/
theorem Token.isLongest_of_ofChar? {t : Token} {c : Char} (h : ofChar? c = some t)
    (after : List Char) : t.IsLongest [c] after where
  spells := spells_of_ofChar? h
  length_le := by
    intro t' longer hlonger hprefix
    obtain ⟨l, -, hl⟩ | ⟨d, rfl, -⟩ := hlonger.number_or_symbol
    · obtain ⟨d, rest, rfl, hd⟩ := hl.exists_cons
      obtain ⟨rfl, -⟩ := List.cons_prefix_cons.mp hprefix
      rw [ofChar?_of_isDigit_or_point hd] at h
      exact absurd h (by simp)
    · rfl

theorem Lexes.symbol {t : Token} {c : Char} {cs rest : List Char} {ts : List Token}
    (h : Token.ofChar? c = some t) (more : Lexes cs ts rest) : Lexes (c :: cs) (t :: ts) rest :=
  .token (Token.isLongest_of_ofChar? h cs) more

/-- A literal that is scanned is the longest token where it stands. -/
theorem Token.isLongest_of_scan {l : Literal} {lexeme after : List Char} (hl : l.Spells lexeme)
    (h : Literal.scan (lexeme ++ after) = some (l, after)) :
    (Token.number l.toFloat).IsLongest lexeme after where
  spells := .number hl
  length_le := by
    intro t' longer hlonger hprefix
    obtain ⟨l', -, hl'⟩ | ⟨c, rfl, -⟩ := hlonger.number_or_symbol
    · obtain ⟨lexeme', heq, -, hlongest⟩ := Literal.scan_eq_some_iff.mp h
      rw [List.append_cancel_right heq]
      exact hlongest longer (Literal.mem_texts.mpr ⟨l', hl'⟩) hprefix
    · exact List.length_pos_of_ne_nil (Token.Spells.number hl).ne_nil

/-- What follows the first tokens decides about the whole text. -/
theorem Lexes.tokens?_eq {cs rest : List Char} {ts : List Token} (h : Lexes cs ts rest) :
    tokens? cs = (tokens? rest).map (ts ++ ·) := by
  induction h with
  | done rest => simp
  | blank h more ih => rw [tokens?_blank h, ih]
  | token first more ih =>
    rw [tokens?_of_isLongest first, ih, Option.map_map]
    rfl

theorem IsStuck.tokens?_eq_none {cs : List Char} (h : IsStuck cs) : tokens? cs = none := by
  obtain ⟨c, rest, rfl, hblank, hnone⟩ := h
  have hsymbol : Token.ofChar? c = none := by
    refine Option.eq_none_iff_forall_ne_some.mpr fun t ht => ?_
    exact hnone t [c] (Token.spells_of_ofChar? ht) ⟨rest, rfl⟩
  refine tokens?_of_scan_eq_none hblank hsymbol (Option.eq_none_iff_forall_ne_some.mpr ?_)
  rintro ⟨l, after⟩ hscan
  obtain ⟨lexeme, hl, heq⟩ := Literal.spells_of_scan hscan
  exact hnone _ lexeme (.number hl) ⟨after, heq.symm⟩

theorem isStuck_of_scan_eq_none {c : Char} {rest : List Char} (hblank : Text.isBlank c = false)
    (hsymbol : Token.ofChar? c = none) (h : Literal.scan (c :: rest) = none) :
    IsStuck (c :: rest) := by
  refine ⟨c, rest, rfl, hblank, fun t lexeme hspells hprefix => ?_⟩
  obtain ⟨l, -, hl⟩ | ⟨d, rfl, hd, -⟩ := hspells.number_or_symbol
  · obtain ⟨after, heq⟩ := hprefix
    obtain ⟨l', rest', hscan, -⟩ := Literal.scan_append hl after
    rw [heq, h] at hscan
    exact absurd hscan (by simp)
  · obtain ⟨rfl, -⟩ := List.cons_prefix_cons.mp hprefix
    rw [hsymbol] at hd
    exact absurd hd (by simp)

/-- Cutting a text leads to its end or to a place where no token stands. -/
theorem exists_lexes (cs : List Char) :
    ∃ ts rest, Lexes cs ts rest ∧ (rest = [] ∨ IsStuck rest) := by
  fun_induction tokens? cs with
  | case1 => exact ⟨[], [], .done [], .inl rfl⟩
  | case2 c after hblank ih =>
    obtain ⟨ts, rest, hlexes, hrest⟩ := ih
    exact ⟨ts, rest, .blank hblank hlexes, hrest⟩
  | case3 c after hblank t ht ih =>
    obtain ⟨ts, rest, hlexes, hrest⟩ := ih
    exact ⟨t :: ts, rest, .symbol ht hlexes, hrest⟩
  | case4 c rest hblank hsymbol l after hscan _ ih =>
    obtain ⟨ts, rest', hlexes, hrest⟩ := ih
    obtain ⟨lexeme, hl, heq⟩ := Literal.spells_of_scan hscan
    rw [heq] at hscan ⊢
    exact ⟨_ :: ts, rest', .token (Token.isLongest_of_scan hl hscan) hlexes, hrest⟩
  | case5 c rest hblank hsymbol hscan =>
    exact ⟨[], c :: rest, .done _,
      .inr (isStuck_of_scan_eq_none (by simpa using hblank) hsymbol hscan)⟩

/-- The tokens that are found are those that longest matches cut the whole text into. -/
theorem tokens?_eq_some_iff {cs : List Char} {ts : List Token} :
    tokens? cs = some ts ↔ Lexes cs ts [] := by
  constructor
  · intro h
    obtain ⟨ts', rest, hlexes, rfl | hstuck⟩ := exists_lexes cs
    · have heq := hlexes.tokens?_eq
      rw [h, tokens?_nil, Option.map_some, List.append_nil] at heq
      rwa [Option.some.inj heq]
    · rw [hlexes.tokens?_eq, hstuck.tokens?_eq_none] at h
      exact absurd h (by simp)
  · intro h
    rw [h.tokens?_eq, tokens?_nil, Option.map_some, List.append_nil]

/-- No tokens are found if longest matches lead to a place where no token stands. -/
theorem tokens?_eq_none_iff {cs : List Char} :
    tokens? cs = none ↔ ∃ ts rest, Lexes cs ts rest ∧ IsStuck rest := by
  constructor
  · intro h
    obtain ⟨ts, rest, hlexes, rfl | hstuck⟩ := exists_lexes cs
    · rw [tokens?_eq_some_iff.mpr hlexes] at h
      exact absurd h (by simp)
    · exact ⟨ts, rest, hlexes, hstuck⟩
  · rintro ⟨ts, rest, hlexes, hstuck⟩
    rw [hlexes.tokens?_eq, hstuck.tokens?_eq_none, Option.map_none]

end GridCss.Arithmetic
