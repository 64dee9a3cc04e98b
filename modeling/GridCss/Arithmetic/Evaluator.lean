import GridCss.Arithmetic.Token
import GridCss.Number.Binary

/-!
# Values of arithmetic text

An expression is a sum of terms, a term is a product of signed factors, a factor is a number or an
expression in parentheses. Tokens are evaluated as they come: an operator is applied when its right
operand is complete, which for a sum is when the product behind it ends. Sums and products thus
group to the left, and products bind tighter.
-/

namespace GridCss.Arithmetic

inductive AddOp where
  | add | sub
  deriving DecidableEq, Repr

inductive MulOp where
  | mul | div | mod
  deriving DecidableEq, Repr

def AddOp.apply : AddOp → Float → Float → Float
  | add, x, y => x + y
  | sub, x, y => x - y

def AddOp.sign : AddOp → Float → Float
  | add, x => x
  | sub, x => -x

def MulOp.apply : MulOp → Float → Float → Float
  | mul, x, y => x * y
  | div, x, y => x / y
  | mod, x, y => Number.remainder x y

/-- What stands in front of the next operand: a sum and its operator, a product and its operator,
and the signs of the operand, latest first. -/
structure Level where
  sum : Option (Float × AddOp) := none
  product : Option (Float × MulOp) := none
  signs : List AddOp := []

/-- A sum with its last term. -/
def closeSum : Option (Float × AddOp) → Float → Float
  | none, x => x
  | some (sum, op), x => op.apply sum x

/-- A product with its last factor. -/
def closeProduct : Option (Float × MulOp) → Float → Float
  | none, x => x
  | some (product, op), x => op.apply product x

/-- The state of evaluating an expression: in front of an operand or behind one. The levels around
the innermost parentheses follow, innermost first. -/
inductive Evaluator where
  | operand (level : Level) (outer : List Level)
  | operator (sum : Option (Float × AddOp)) (term : Float) (outer : List Level)

namespace Evaluator

/-- Behind a whole operand. -/
def supply (level : Level) (x : Float) (outer : List Level) : Evaluator :=
  .operator level.sum
    (closeProduct level.product (level.signs.foldl (fun x sign => sign.sign x) x)) outer

def step : Evaluator → Token → Option Evaluator
  | .operand level outer, t =>
    match t with
    | .number x => some (supply level x outer)
    | .plus => some (.operand { level with signs := .add :: level.signs } outer)
    | .minus => some (.operand { level with signs := .sub :: level.signs } outer)
    | .opening => some (.operand {} (level :: outer))
    | _ => none
  | .operator sum term outer, t =>
    match t with
    | .plus => some (.operand { sum := some (closeSum sum term, .add) } outer)
    | .minus => some (.operand { sum := some (closeSum sum term, .sub) } outer)
    | .star => some (.operand { sum := sum, product := some (term, .mul) } outer)
    | .slash => some (.operand { sum := sum, product := some (term, .div) } outer)
    | .percent => some (.operand { sum := sum, product := some (term, .mod) } outer)
    | .closing =>
      match outer with
      | [] => none
      | level :: outer => some (supply level (closeSum sum term) outer)
    | _ => none

/-- The value, if all parentheses are closed and no operand is missing. -/
def finish : Evaluator → Option Float
  | .operator sum term [] => some (closeSum sum term)
  | _ => none

end Evaluator

def evaluateTokens (ts : List Token) : Option Float :=
  (ts.foldlM Evaluator.step (.operand {} [])).bind Evaluator.finish

/-- The value of an arithmetic text. -/
def evaluate (text : String) : Option Float :=
  (tokens? text.toList).bind evaluateTokens

end GridCss.Arithmetic
