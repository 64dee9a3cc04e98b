import GridCss.Proofs.ArithmeticGrammar
import GridCss.Proofs.BuiltinFunctions
import GridCss.Proofs.JoinedText
import GridCss.Proofs.NumericText

/-!
# Numbers as arithmetic

Text that is read as a number is an arithmetic expression of at most one sign and a number, and its
value is this number. Mathematical functions see their arguments through the numbers that they stand
for, so that such a text and its number are the same to them.
-/

namespace GridCss

namespace Arithmetic

theorem Lexes.blanks_append {front cs rest : List Char} {ts : List Token}
    (hfront : ∀ c ∈ front, Text.isBlank c) (h : Lexes cs ts rest) :
    Lexes (front ++ cs) ts rest := by
  induction front with
  | nil => exact h
  | cons c front ih =>
    rw [List.forall_mem_cons] at hfront
    exact .blank hfront.1 (ih hfront.2)

/-- A literal in front of blanks is one token. -/
theorem lexes_literal {l : Literal} {lexeme back : List Char} (h : l.Spells lexeme)
    (hback : ∀ c ∈ back, Text.isBlank c) : Lexes (lexeme ++ back) [.number l.toFloat] [] := by
  have hscan : Literal.scan (lexeme ++ back) = some (l, back) := by
    refine Literal.scan_append_of_forall h fun c hc => ?_
    have hblank := hback c hc
    rw [← Bool.not_eq_true, ← not_or]
    intro hdigit
    rw [isBlank_of_isDigit_or_point hdigit] at hblank
    exact absurd hblank (by simp)
  have hrest : Lexes back [] [] := by
    have hdone := Lexes.blanks_append hback (.done [])
    rwa [List.append_nil] at hdone
  exact .token (Token.isLongest_of_scan h hscan) hrest

/-- A signed literal is an expression with the number that it is read as. -/
theorem exists_expr_of_reads {lit back : List Char} {x : Float} (h : Literal.Reads lit x)
    (hback : ∀ c ∈ back, Text.isBlank c) :
    ∃ e : Expr, Lexes (lit ++ back) e.tokens [] ∧ e.eval = x := by
  cases h with
  | @unsigned l cs literal =>
    exact ⟨.term (.factor (.number l.toFloat)), lexes_literal literal hback, rfl⟩
  | @plus l cs literal =>
    exact ⟨.term (.factor (.signed .add (.number l.toFloat))),
      .symbol rfl (lexes_literal literal hback), rfl⟩
  | @minus l cs literal =>
    exact ⟨.term (.factor (.signed .sub (.number l.toFloat))),
      .symbol rfl (lexes_literal literal hback), rfl⟩

theorem evaluate_of_lexes {text : String} {e : Expr} (h : Lexes text.toList e.tokens []) :
    evaluate text = some e.eval := by
  rw [evaluate, tokens?_eq_some_iff.mpr h, Option.bind_some, evaluateTokens_tokens]

/-- The value of a text that is read as a number is this number. -/
theorem evaluate_eq_of_parseNumber {s : String} {n : Float} (h : parseNumber s = some n) :
    evaluate s = some n := by
  obtain ⟨lit, hreads, htrim⟩ :=
    Scalar.exists_reads_of_parse (Scalar.parseNumber_eq_some_iff.mp h)
  obtain ⟨front, back, heq, hfront, hback⟩ := Text.exists_trim s
  rw [htrim, Scalar.unitText, List.append_nil] at heq
  obtain ⟨e, hlexes, rfl⟩ := exists_expr_of_reads hreads hback
  exact evaluate_of_lexes (heq ▸ hlexes.blanks_append hfront)

end Arithmetic

namespace Math

/-- A function that sees no more of its arguments than the numbers they stand for. -/
def SeesNumbers (f : Function) : Prop :=
  ∀ (cell : Cell) (arguments arguments' : List Value),
    arguments.map number? = arguments'.map number? → f cell arguments = f cell arguments'

theorem bind_number?_getElem? (arguments : List Value) (i : Nat) :
    arguments[i]?.bind number? = (arguments.map number?)[i]?.join := by
  rw [List.getElem?_map]
  cases arguments[i]? <;> rfl

theorem seesNumbers_unary (f : Float → Float) : SeesNumbers (unary f) := by
  intro cell arguments arguments' h
  simp only [unary, Function.pure, bind_number?_getElem?, h]

theorem seesNumbers_binary (f : Float → Float → Float) : SeesNumbers (binary f) := by
  intro cell arguments arguments' h
  simp only [binary, Function.pure, bind_number?_getElem?, h]

theorem seesNumbers_variadic (f : List Float → Float) : SeesNumbers (variadic f) := by
  intro cell arguments arguments' h
  have hall : ∀ vs : List Value, vs.mapM number? = (vs.map number?).mapM id := by
    intro vs
    simp
  simp only [variadic, Function.pure, hall, h]

/-- All mathematical functions see their arguments as numbers. -/
theorem table_seesNumbers : ∀ e ∈ table, SeesNumbers e.2 := by
  intro e he
  simp only [table, List.mem_append, List.mem_cons, List.not_mem_nil, or_false] at he
  rcases he with (he | he) | rfl | rfl | rfl | rfl | rfl | rfl | rfl
  · obtain ⟨x, hx⟩ := exists_constant e he
    rw [hx]
    exact fun _ _ _ _ => rfl
  · obtain ⟨f, hf⟩ := exists_unary e he
    rw [hf]
    exact seesNumbers_unary f
  iterate 3 exact seesNumbers_binary _
  iterate 3 exact seesNumbers_variadic _
  exact fun _ _ _ _ => rfl

end Math

/-- Text that is read as a number has this number as its arithmetic value, and no mathematical
function tells the text from the number, at any place among its arguments. -/
theorem Math.evaluate_extends_parseNumber {s : String} {n : Float} (h : parseNumber s = some n) :
    Arithmetic.evaluate s = some n ∧ number? (.text s) = number? (.number n) ∧
      ∀ e ∈ table, ∀ (cell : Cell) (before after : List Value),
        e.2 cell (before ++ .text s :: after) = e.2 cell (before ++ .number n :: after) := by
  have hvalue := Arithmetic.evaluate_eq_of_parseNumber h
  have hnumber : number? (.text s) = number? (.number n) := hvalue
  refine ⟨hvalue, hnumber, fun e he cell before after => table_seesNumbers e he cell _ _ ?_⟩
  simp only [List.map_append, List.map_cons, hnumber]

/-- A sign, a fraction without whole digits, an exponent with its own sign, and blanks around. -/
theorem Math.evaluate_extends_parseNumber_fraction :
    parseNumber " -.5e+1\n" = some (-Literal.toFloat ⟨[], ['5'], 1⟩) ∧
      Arithmetic.evaluate " -.5e+1\n" = some (-Literal.toFloat ⟨[], ['5'], 1⟩) ∧
      ("max", variadic max) ∈ table ∧
      variadic max ⟨1, 1, 1⟩ [.number 1, .text " -.5e+1\n"] =
        variadic max ⟨1, 1, 1⟩ [.number 1, .number (-Literal.toFloat ⟨[], ['5'], 1⟩)] := by
  have h : parseNumber " -.5e+1\n" = some (-Literal.toFloat ⟨[], ['5'], 1⟩) := rfl
  have hmax : ("max", variadic max) ∈ table := by simp [table]
  obtain ⟨hvalue, -, hfunctions⟩ := evaluate_extends_parseNumber h
  exact ⟨h, hvalue, hmax, hfunctions _ hmax ⟨1, 1, 1⟩ [.number 1] []⟩

end GridCss
