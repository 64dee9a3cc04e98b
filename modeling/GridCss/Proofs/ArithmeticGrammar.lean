import GridCss.Arithmetic.Evaluator
import GridCss.Proofs.ArithmeticTokens
import GridCss.Proofs.Remainders

/-!
# The grammar of arithmetic

Sums of terms, products of signed factors, and factors that are numbers or sums in parentheses. The
tree of an expression spells its tokens and has a value of its own. No two trees spell the same
tokens, and evaluating the tokens of a tree, level by level, gives its value. Whatever tokens have
been evaluated, the numbers that are kept are the values of trees that these tokens spell.
-/

namespace GridCss.Arithmetic

def AddOp.token : AddOp → Token
  | add => .plus
  | sub => .minus

def MulOp.token : MulOp → Token
  | mul => .star
  | div => .slash
  | mod => .percent

mutual

inductive Expr where
  | term (t : Term)
  | binary (e : Expr) (op : AddOp) (t : Term)

inductive Term where
  | factor (f : Factor)
  | binary (t : Term) (op : MulOp) (f : Factor)

inductive Factor where
  | number (x : Float)
  | group (e : Expr)
  | signed (sign : AddOp) (f : Factor)

end

mutual

/-- `term (("+" | "-") term)*` -/
def Expr.tokens : Expr → List Token
  | .term t => t.tokens
  | .binary e op t => e.tokens ++ op.token :: t.tokens

/-- `factor (("*" | "/" | "%") factor)*` -/
def Term.tokens : Term → List Token
  | .factor f => f.tokens
  | .binary t op f => t.tokens ++ op.token :: f.tokens

/-- `("+" | "-") factor | number | "(" expr ")"` -/
def Factor.tokens : Factor → List Token
  | .number x => [.number x]
  | .group e => .opening :: (e.tokens ++ [.closing])
  | .signed sign f => sign.token :: f.tokens

end

mutual

def Expr.eval : Expr → Float
  | .term t => t.eval
  | .binary e .add t => e.eval + t.eval
  | .binary e .sub t => e.eval - t.eval

def Term.eval : Term → Float
  | .factor f => f.eval
  | .binary t .mul f => t.eval * f.eval
  | .binary t .div f => t.eval / f.eval
  | .binary t .mod f => Number.remainder t.eval f.eval

def Factor.eval : Factor → Float
  | .number x => x
  | .group e => e.eval
  | .signed .add f => f.eval
  | .signed .sub f => -f.eval

end

theorem Expr.eval_binary (e : Expr) (op : AddOp) (t : Term) :
    (Expr.binary e op t).eval = op.apply e.eval t.eval := by
  cases op <;> rfl

theorem Term.eval_binary (t : Term) (op : MulOp) (f : Factor) :
    (Term.binary t op f).eval = op.apply t.eval f.eval := by
  cases op <;> rfl

theorem Factor.eval_signed (sign : AddOp) (f : Factor) :
    (Factor.signed sign f).eval = sign.sign f.eval := by
  cases sign <;> rfl

theorem AddOp.token_injective {op op' : AddOp} (h : op.token = op'.token) : op = op' := by
  cases op <;> cases op' <;> first | rfl | cases h

theorem MulOp.token_injective {op op' : MulOp} (h : op.token = op'.token) : op = op' := by
  cases op <;> cases op' <;> first | rfl | cases h

/-- A product with more factors behind it. -/
def Term.extend (t : Term) (more : List (MulOp × Factor)) : Term :=
  more.foldl (fun t next => .binary t next.1 next.2) t

/-- A sum with more terms behind it. -/
def Expr.extend (e : Expr) (more : List (AddOp × Term)) : Expr :=
  more.foldl (fun e next => .binary e next.1 next.2) e

def factorTokens : List (MulOp × Factor) → List Token
  | [] => []
  | (op, f) :: more => op.token :: (f.tokens ++ factorTokens more)

def termTokens : List (AddOp × Term) → List Token
  | [] => []
  | (op, t) :: more => op.token :: (t.tokens ++ termTokens more)

/-- No factor follows. -/
def EndsTerm (rest : List Token) : Prop := ∀ op : MulOp, rest.head? ≠ some op.token

/-- Neither a factor nor a term follows. -/
def EndsExpr (rest : List Token) : Prop :=
  EndsTerm rest ∧ ∀ op : AddOp, rest.head? ≠ some op.token

theorem endsTerm_cons (op : AddOp) (rest : List Token) : EndsTerm (op.token :: rest) := by
  intro op'
  cases op <;> cases op' <;> simp [AddOp.token, MulOp.token]

theorem EndsTerm.termTokens_append {rest : List Token} (h : EndsTerm rest)
    (more : List (AddOp × Term)) : EndsTerm (termTokens more ++ rest) := by
  cases more with
  | nil => exact h
  | cons next more => exact endsTerm_cons next.1 _

theorem endsExpr_closing (rest : List Token) : EndsExpr (.closing :: rest) := by
  refine ⟨fun op => ?_, fun op => ?_⟩
  · cases op <;> simp [MulOp.token]
  · cases op <;> simp [AddOp.token]

theorem Term.exists_extend (t : Term) : ∃ f more, t = extend (.factor f) more := by
  cases t with
  | factor f => exact ⟨f, [], rfl⟩
  | binary t op f =>
    obtain ⟨first, more, rfl⟩ := t.exists_extend
    exact ⟨first, more ++ [(op, f)], by simp [extend]⟩

theorem Expr.exists_extend (e : Expr) : ∃ t more, e = extend (.term t) more := by
  cases e with
  | term t => exact ⟨t, [], rfl⟩
  | binary e op t =>
    obtain ⟨first, more, rfl⟩ := e.exists_extend
    exact ⟨first, more ++ [(op, t)], by simp [extend]⟩

theorem Term.tokens_extend (t : Term) (more : List (MulOp × Factor)) :
    (t.extend more).tokens = t.tokens ++ factorTokens more := by
  induction more generalizing t with
  | nil => exact (List.append_nil _).symm
  | cons next more ih =>
    rw [show t.extend (next :: more) = (Term.binary t next.1 next.2).extend more from rfl, ih]
    simp [Term.tokens, factorTokens]

theorem Expr.tokens_extend (e : Expr) (more : List (AddOp × Term)) :
    (e.extend more).tokens = e.tokens ++ termTokens more := by
  induction more generalizing e with
  | nil => exact (List.append_nil _).symm
  | cons next more ih =>
    rw [show e.extend (next :: more) = (Expr.binary e next.1 next.2).extend more from rfl, ih]
    simp [Expr.tokens, termTokens]

/-- Where no factor follows, none has been added. -/
theorem Term.eq_of_extend {t t' : Term} {rest rest' : List Token}
    (h : ∃ more, t' = t.extend more ∧ rest = factorTokens more ++ rest') (hrest : EndsTerm rest) :
    t = t' ∧ rest = rest' := by
  obtain ⟨more, rfl, rfl⟩ := h
  cases more with
  | nil => exact ⟨rfl, rfl⟩
  | cons next more => exact absurd rfl (hrest next.1)

-- A tree whose tokens start with those of another one has the operands of the other, and more where
-- the other stops. The induction is on the tree that stops first, the last operand coming last.
mutual

theorem Expr.exists_extend_of_tokens {e e' : Expr} {rest rest' : List Token}
    (h : e.tokens ++ rest = e'.tokens ++ rest') (hrest : EndsTerm rest) (hrest' : EndsExpr rest') :
    ∃ more, e' = e.extend more ∧ rest = termTokens more ++ rest' := by
  cases e with
  | term t =>
    obtain ⟨t', more, rfl⟩ := e'.exists_extend
    rw [Expr.tokens_extend, List.append_assoc] at h
    have hends := hrest'.1.termTokens_append more
    obtain ⟨rfl, rfl⟩ := Term.eq_of_extend (Term.exists_extend_of_tokens h hends) hrest
    exact ⟨more, rfl, rfl⟩
  | binary e op t =>
    rw [Expr.tokens, List.append_assoc] at h
    obtain ⟨more, rfl, hmore⟩ := Expr.exists_extend_of_tokens h (endsTerm_cons op _) hrest'
    cases more with
    | nil => exact absurd (congrArg List.head? hmore).symm (hrest'.2 op)
    | cons next more =>
      rw [termTokens, List.cons_append, List.cons_append, List.append_assoc] at hmore
      obtain ⟨hop, hmore⟩ := List.cons.inj hmore
      have hends := hrest'.1.termTokens_append more
      obtain ⟨rfl, rfl⟩ := Term.eq_of_extend (Term.exists_extend_of_tokens hmore hends) hrest
      obtain rfl := AddOp.token_injective hop
      exact ⟨more, rfl, rfl⟩

theorem Term.exists_extend_of_tokens {t t' : Term} {rest rest' : List Token}
    (h : t.tokens ++ rest = t'.tokens ++ rest') (hrest' : EndsTerm rest') :
    ∃ more, t' = t.extend more ∧ rest = factorTokens more ++ rest' := by
  cases t with
  | factor f =>
    obtain ⟨f', more, rfl⟩ := t'.exists_extend
    rw [Term.tokens_extend, List.append_assoc] at h
    obtain ⟨rfl, rfl⟩ := Factor.eq_of_tokens h
    exact ⟨more, rfl, rfl⟩
  | binary t op f =>
    rw [Term.tokens, List.append_assoc] at h
    obtain ⟨more, rfl, hmore⟩ := Term.exists_extend_of_tokens h hrest'
    cases more with
    | nil => exact absurd (congrArg List.head? hmore).symm (hrest' op)
    | cons next more =>
      rw [factorTokens, List.cons_append, List.cons_append, List.append_assoc] at hmore
      obtain ⟨hop, hmore⟩ := List.cons.inj hmore
      obtain ⟨rfl, rfl⟩ := Factor.eq_of_tokens hmore
      obtain rfl := MulOp.token_injective hop
      exact ⟨more, rfl, rfl⟩

/-- The tokens of a factor end where they must, whatever follows. -/
theorem Factor.eq_of_tokens {f f' : Factor} {rest rest' : List Token}
    (h : f.tokens ++ rest = f'.tokens ++ rest') : f = f' ∧ rest = rest' := by
  cases f with
  | number x =>
    cases f' with
    | number y =>
      cases h
      exact ⟨rfl, rfl⟩
    | group e => cases h
    | signed sign f => cases sign <;> cases h
  | group e =>
    cases f' with
    | number y => cases h
    | group e' =>
      simp only [Factor.tokens, List.cons_append, List.append_assoc] at h
      obtain ⟨more, rfl, hmore⟩ := Expr.exists_extend_of_tokens (List.cons.inj h).2
        (endsExpr_closing rest).1 (endsExpr_closing rest')
      cases more with
      | nil =>
        cases hmore
        exact ⟨rfl, rfl⟩
      | cons next more =>
        exact absurd (congrArg List.head? hmore) ((endsExpr_closing rest).2 next.1)
    | signed sign f => cases sign <;> cases h
  | signed sign f =>
    cases f' with
    | number y => cases sign <;> cases h
    | group e => cases sign <;> cases h
    | signed sign' f' =>
      obtain ⟨hsign, hrest⟩ := List.cons.inj h
      obtain ⟨rfl, rfl⟩ := Factor.eq_of_tokens hrest
      obtain rfl := AddOp.token_injective hsign
      exact ⟨rfl, rfl⟩

end

theorem Expr.tokens_injective {e e' : Expr} (h : e.tokens = e'.tokens) : e = e' := by
  have hnil : EndsExpr [] := ⟨fun _ => nofun, fun _ => nofun⟩
  obtain ⟨more, rfl, hmore⟩ :=
    Expr.exists_extend_of_tokens (congrArg (· ++ []) h) hnil.1 hnil
  cases more with
  | nil => rfl
  | cons next more => cases hmore

/-- The tokens of a sum and its operator, and the value of the sum. -/
inductive SumReads : Option (Float × AddOp) → List Token → Prop where
  | none : SumReads none []
  | some (e : Expr) (op : AddOp) : SumReads (some (e.eval, op)) (e.tokens ++ [op.token])

/-- The tokens of a product and its operator, and the value of the product. -/
inductive ProductReads : Option (Float × MulOp) → List Token → Prop where
  | none : ProductReads none []
  | some (t : Term) (op : MulOp) : ProductReads (some (t.eval, op)) (t.tokens ++ [op.token])

/-- The tokens of what stands in front of an operand. -/
inductive Level.Reads (level : Level) : List Token → Prop where
  | intro {sum product : List Token} (hsum : SumReads level.sum sum)
    (hproduct : ProductReads level.product product) :
    Reads level (sum ++ product ++ level.signs.reverse.map AddOp.token)

theorem Level.reads_empty : Level.Reads {} [] := @Level.Reads.intro {} [] [] .none .none

/-- The tokens of the levels around the innermost parentheses, with their opening parentheses. -/
inductive OuterReads : List Level → List Token → Prop where
  | nil : OuterReads [] []
  | cons {level : Level} {outer : List Level} {ts ts' : List Token} (houter : OuterReads outer ts)
    (hlevel : level.Reads ts') : OuterReads (level :: outer) (ts ++ ts' ++ [.opening])

/-- The tokens that lead to a state. -/
inductive Evaluator.Reads : Evaluator → List Token → Prop where
  | before {level : Level} {outer : List Level} {ts ts' : List Token} (houter : OuterReads outer ts)
    (hlevel : level.Reads ts') : Reads (.operand level outer) (ts ++ ts')
  | behind {sum : Option (Float × AddOp)} {outer : List Level} {ts ts' : List Token}
    (houter : OuterReads outer ts) (hsum : SumReads sum ts') (t : Term) :
    Reads (.operator sum t.eval outer) (ts ++ ts' ++ t.tokens)

theorem SumReads.close {sum : Option (Float × AddOp)} {ts : List Token} (h : SumReads sum ts)
    (t : Term) : ∃ e : Expr, e.eval = closeSum sum t.eval ∧ e.tokens = ts ++ t.tokens := by
  cases h with
  | none => exact ⟨.term t, rfl, rfl⟩
  | some e op => exact ⟨.binary e op t, e.eval_binary op t, by simp [Expr.tokens]⟩

theorem ProductReads.close {product : Option (Float × MulOp)} {ts : List Token}
    (h : ProductReads product ts) (f : Factor) :
    ∃ t : Term, t.eval = closeProduct product f.eval ∧ t.tokens = ts ++ f.tokens := by
  cases h with
  | none => exact ⟨.factor f, rfl, rfl⟩
  | some t op => exact ⟨.binary t op f, t.eval_binary op f, by simp [Term.tokens]⟩

theorem Factor.exists_signed (signs : List AddOp) (f : Factor) :
    ∃ f' : Factor, f'.eval = signs.foldl (fun x sign => sign.sign x) f.eval ∧
      f'.tokens = signs.reverse.map AddOp.token ++ f.tokens := by
  induction signs generalizing f with
  | nil => exact ⟨f, rfl, rfl⟩
  | cons sign signs ih =>
    obtain ⟨f', hvalue, htokens⟩ := ih (.signed sign f)
    refine ⟨f', ?_, ?_⟩
    · rw [hvalue, Factor.eval_signed, List.foldl_cons]
    · simp [htokens, Factor.tokens]

namespace Evaluator

theorem Reads.supply {level : Level} {outer : List Level} {ts ts' : List Token}
    (houter : OuterReads outer ts) (hlevel : level.Reads ts') (f : Factor) :
    (supply level f.eval outer).Reads (ts ++ ts' ++ f.tokens) := by
  obtain ⟨hsum, hproduct⟩ := hlevel
  obtain ⟨f', hf', htokens⟩ := f.exists_signed level.signs
  obtain ⟨t, ht, htokens'⟩ := hproduct.close f'
  have hreads := Reads.behind houter hsum t
  rw [ht, hf', htokens', htokens] at hreads
  simpa [Evaluator.supply] using hreads

theorem Reads.sign {level : Level} {outer : List Level} {ts : List Token}
    (h : (operand level outer).Reads ts) (sign : AddOp) :
    (operand { level with signs := sign :: level.signs } outer).Reads (ts ++ [sign.token]) := by
  obtain ⟨houter, ⟨hsum, hproduct⟩⟩ := h
  have hlevel : Level.Reads { level with signs := sign :: level.signs } _ := ⟨hsum, hproduct⟩
  simpa using Reads.before houter hlevel

theorem Reads.nextTerm {sum : Option (Float × AddOp)} {x : Float} {outer : List Level}
    {ts : List Token} (h : (operator sum x outer).Reads ts) (op : AddOp) :
    (operand { sum := some (closeSum sum x, op) } outer).Reads (ts ++ [op.token]) := by
  cases h with
  | behind houter hsum t =>
    obtain ⟨e, he, htokens⟩ := hsum.close t
    have hlevel : Level.Reads { sum := some (e.eval, op) } _ := ⟨.some e op, .none⟩
    simpa [he, htokens] using Reads.before houter hlevel

theorem Reads.nextFactor {sum : Option (Float × AddOp)} {x : Float} {outer : List Level}
    {ts : List Token} (h : (operator sum x outer).Reads ts) (op : MulOp) :
    (operand { sum := sum, product := some (x, op) } outer).Reads (ts ++ [op.token]) := by
  cases h with
  | behind houter hsum t =>
    have hlevel : Level.Reads { sum := sum, product := some (t.eval, op) } _ := ⟨hsum, .some t op⟩
    simpa using Reads.before houter hlevel

/-- A step adds its token to what has been read. -/
theorem Reads.step {r r' : Evaluator} {ts : List Token} {t : Token} (h : r.Reads ts)
    (hstep : r.step t = some r') : r'.Reads (ts ++ [t]) := by
  cases r with
  | operand level outer =>
    cases t with
    | number x =>
      obtain rfl := Option.some.inj hstep
      obtain ⟨houter, hlevel⟩ := h
      exact Reads.supply houter hlevel (.number x)
    | plus =>
      obtain rfl := Option.some.inj hstep
      exact h.sign .add
    | minus =>
      obtain rfl := Option.some.inj hstep
      exact h.sign .sub
    | opening =>
      obtain rfl := Option.some.inj hstep
      obtain ⟨houter, hlevel⟩ := h
      simpa using Reads.before (houter.cons hlevel) Level.reads_empty
    | _ => exact absurd hstep (by simp [Evaluator.step])
  | operator sum term outer =>
    cases t with
    | plus =>
      obtain rfl := Option.some.inj hstep
      exact h.nextTerm .add
    | minus =>
      obtain rfl := Option.some.inj hstep
      exact h.nextTerm .sub
    | star =>
      obtain rfl := Option.some.inj hstep
      exact h.nextFactor .mul
    | slash =>
      obtain rfl := Option.some.inj hstep
      exact h.nextFactor .div
    | percent =>
      obtain rfl := Option.some.inj hstep
      exact h.nextFactor .mod
    | closing =>
      cases h with
      | behind houter hsum t =>
        cases houter with
        | nil => exact absurd hstep (by simp [Evaluator.step])
        | cons houter hlevel =>
          obtain rfl := Option.some.inj hstep
          obtain ⟨e, he, htokens⟩ := hsum.close t
          have hreads := Reads.supply houter hlevel (.group e)
          simpa [Factor.eval, Factor.tokens, he, htokens] using hreads
    | _ => exact absurd hstep (by simp [Evaluator.step])

theorem Reads.foldlM {r r' : Evaluator} {ts ts' : List Token} (h : r.Reads ts)
    (hfold : ts'.foldlM Evaluator.step r = some r') : r'.Reads (ts ++ ts') := by
  induction ts' generalizing r ts with
  | nil =>
    obtain rfl := Option.some.inj hfold
    rwa [List.append_nil]
  | cons t ts' ih =>
    rw [List.foldlM_cons] at hfold
    obtain ⟨r₁, hstep, hrest⟩ := Option.bind_eq_some_iff.mp hfold
    rw [List.append_cons]
    exact ih (h.step hstep) hrest

theorem Reads.finish {r : Evaluator} {ts : List Token} {v : Float} (h : r.Reads ts)
    (hfinish : r.finish = some v) : ∃ e : Expr, e.tokens = ts ∧ e.eval = v := by
  cases h with
  | before => cases hfinish
  | behind houter hsum t =>
    cases houter with
    | nil =>
      obtain rfl := Option.some.inj hfinish
      obtain ⟨e, he, htokens⟩ := hsum.close t
      exact ⟨e, htokens, he⟩
    | cons => cases hfinish

end Evaluator

mutual

theorem Expr.foldlM_step (e : Expr) (outer : List Level) :
    ∃ sum x, e.tokens.foldlM Evaluator.step (.operand {} outer) = some (.operator sum x outer) ∧
      closeSum sum x = e.eval := by
  cases e with
  | term t => exact ⟨none, t.eval, t.foldlM_step none outer, rfl⟩
  | binary e op t =>
    obtain ⟨sum, x, hread, hvalue⟩ := e.foldlM_step outer
    have hop : Evaluator.step (.operator sum x outer) op.token =
        some (.operand { sum := some (e.eval, op) } outer) := by
      rw [← hvalue]
      cases op <;> rfl
    refine ⟨some (e.eval, op), t.eval, ?_, (e.eval_binary op t).symm⟩
    rw [Expr.tokens, List.foldlM_append, hread, Option.bind_eq_bind, Option.bind_some,
      List.foldlM_cons, hop, Option.bind_eq_bind, Option.bind_some]
    exact t.foldlM_step _ outer

theorem Term.foldlM_step (t : Term) (sum : Option (Float × AddOp)) (outer : List Level) :
    t.tokens.foldlM Evaluator.step (.operand { sum := sum } outer) =
      some (.operator sum t.eval outer) := by
  cases t with
  | factor f => exact f.foldlM_step { sum := sum } outer
  | binary t op f =>
    have hop : Evaluator.step (.operator sum t.eval outer) op.token =
        some (.operand { sum := sum, product := some (t.eval, op) } outer) := by cases op <;> rfl
    rw [Term.tokens, List.foldlM_append, t.foldlM_step sum outer, Option.bind_eq_bind,
      Option.bind_some, List.foldlM_cons, hop, Option.bind_eq_bind, Option.bind_some,
      f.foldlM_step { sum := sum, product := some (t.eval, op) } outer, Term.eval_binary]
    rfl

theorem Factor.foldlM_step (f : Factor) (level : Level) (outer : List Level) :
    f.tokens.foldlM Evaluator.step (.operand level outer) =
      some (Evaluator.supply level f.eval outer) := by
  cases f with
  | number x => rfl
  | group e =>
    obtain ⟨sum, x, hread, hvalue⟩ := e.foldlM_step (level :: outer)
    rw [Factor.tokens, List.foldlM_cons]
    show (List.foldlM Evaluator.step (.operand {} (level :: outer)) (_ ++ [Token.closing])) = _
    rw [List.foldlM_append, hread, Factor.eval, ← hvalue]
    rfl
  | signed sign f =>
    have hsign : Evaluator.step (.operand level outer) sign.token =
        some (.operand { level with signs := sign :: level.signs } outer) := by cases sign <;> rfl
    rw [Factor.tokens, List.foldlM_cons, hsign, Option.bind_eq_bind, Option.bind_some,
      f.foldlM_step { level with signs := sign :: level.signs } outer, Factor.eval_signed]
    rfl

end

theorem evaluateTokens_tokens (e : Expr) : evaluateTokens e.tokens = some e.eval := by
  obtain ⟨sum, x, hread, hvalue⟩ := e.foldlM_step []
  rw [evaluateTokens, hread, ← hvalue]
  rfl

/-- Tokens have a value exactly if they are those of an expression with this value. -/
theorem evaluateTokens_eq_some_iff {ts : List Token} {v : Float} :
    evaluateTokens ts = some v ↔ ∃ e : Expr, e.tokens = ts ∧ e.eval = v := by
  constructor
  · intro h
    obtain ⟨r, hfold, hfinish⟩ := Option.bind_eq_some_iff.mp h
    exact ((Evaluator.Reads.before .nil Level.reads_empty).foldlM hfold).finish hfinish
  · rintro ⟨e, rfl, rfl⟩
    exact evaluateTokens_tokens e

/-- Tokens have a value exactly if they are those of an expression, which is the only one with them,
and it is the value of this expression, in which remainders are exact. The value of a text is that
of the tokens into which longest matches cut it; there is none if they lead to a character that no
token starts with. -/
theorem evaluate_implements_grammar :
    (∀ (ts : List Token) (v : Float),
      evaluateTokens ts = some v ↔ ∃ e : Expr, e.tokens = ts ∧ e.eval = v) ∧
    (∀ e e' : Expr, e.tokens = e'.tokens → e = e') ∧
    (∀ x y : Float, Number.IsRemainder x y (Number.remainder x y)) ∧
    ∀ text : String,
      (∃ ts, Lexes text.toList ts [] ∧ (∀ ts', Lexes text.toList ts' [] → ts' = ts) ∧
        evaluate text = evaluateTokens ts) ∨
      ((∃ ts rest, Lexes text.toList ts rest ∧ IsStuck rest) ∧
        (∀ ts, ¬ Lexes text.toList ts []) ∧ evaluate text = none) := by
  refine ⟨fun ts v => evaluateTokens_eq_some_iff, fun e e' => Expr.tokens_injective,
    Number.isRemainder_remainder, fun text => ?_⟩
  cases htokens : tokens? text.toList with
  | some ts =>
    refine .inl ⟨ts, tokens?_eq_some_iff.mp htokens, fun ts' hts' => ?_, ?_⟩
    · exact Option.some.inj ((tokens?_eq_some_iff.mpr hts').symm.trans htokens)
    · rw [evaluate, htokens, Option.bind_some]
  | none =>
    refine .inr ⟨tokens?_eq_none_iff.mp htokens, fun ts hts => ?_, ?_⟩
    · exact absurd (htokens.symm.trans (tokens?_eq_some_iff.mpr hts)) (by simp)
    · rw [evaluate, htokens, Option.bind_none]

/-- Differences that group to the left, a product of a remainder that binds tighter, a sign behind
an operator, and a sum in parentheses. -/
theorem evaluate_implements_grammar_mixed :
    let group : Factor := .group (.binary (.term (.factor (.number 1))) .add (.factor (.number 2)))
    let remainder : Term := .binary (.factor (.signed .sub (.number 7))) .mod group
    let e : Expr :=
      .binary (.binary (.term (.factor (.number 10))) .sub (.factor (.number 4))) .sub
        (.binary remainder .mul (.number 4))
    Lexes "10 - 4 - -7 % (1 + 2) * 4".toList e.tokens [] ∧ e.eval = 10 ∧
      evaluate "10 - 4 - -7 % (1 + 2) * 4" = some 10 := by
  intro group remainder e
  obtain ⟨hvalues, -, -, htexts⟩ := evaluate_implements_grammar
  have hlexes : Lexes "10 - 4 - -7 % (1 + 2) * 4".toList e.tokens [] :=
    tokens?_eq_some_iff.mp (by decide +kernel)
  have hvalue : e.eval = 10 := by decide +kernel
  refine ⟨hlexes, hvalue, ?_⟩
  rcases htexts "10 - 4 - -7 % (1 + 2) * 4" with ⟨ts, -, hunique, heval⟩ | ⟨-, hnone, -⟩
  · rw [heval, ← hunique e.tokens hlexes]
    exact (hvalues e.tokens 10).mpr ⟨e, rfl, hvalue⟩
  · exact absurd hlexes (hnone e.tokens)

end GridCss.Arithmetic
