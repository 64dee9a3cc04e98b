import GridCss.Arithmetic.Evaluator
import GridCss.Function.Registry
import GridCss.Number.CubeRoot
import GridCss.Number.Logarithm

/-!
# Mathematical functions

Constants, functions of one and of two numbers, functions of any number of them, and random numbers.
Text arguments are evaluated as arithmetic; an argument that is no number makes the call give none.
-/

namespace GridCss.Math

/-- The number that a value stands for in a calculation. -/
def number? : Value → Option Float
  | .text s => Arithmetic.evaluate s
  | v => v.asNumber

def constant (x : Float) : Function := Function.pure fun _ _ => some (.number x)

/-- A function of the first argument; others are ignored. -/
def unary (f : Float → Float) : Function :=
  Function.pure fun _ arguments =>
    (arguments[0]?.bind number?).map fun x => .number (f x)

def binary (f : Float → Float → Float) : Function :=
  Function.pure fun _ arguments => do
    let x ← arguments[0]?.bind number?
    let y ← arguments[1]?.bind number?
    return .number (f x y)

def variadic (f : List Float → Float) : Function :=
  Function.pure fun _ arguments => (arguments.mapM number?).map fun xs => .number (f xs)

/-- Halves go up. -/
def round (x : Float) : Float := (x + 0.5).floor

/-- Minus one, zero or one; zeros keep their sign. -/
def sign (x : Float) : Float :=
  if x.isNaN || x == 0 then x else if x < 0 then -1 else 1

def single (x : Float) : Float := x.toFloat32.toFloat

/-- The number of zeros before the first one among 32 bits. -/
def leadingZeros (x : Float) : Float :=
  let n := (Number.toWord x).toNat
  Float.ofNat (if n = 0 then 32 else 31 - n.log2)

/-- The product of two words, read with sign. -/
def wordProduct (x y : Float) : Float :=
  Float.ofInt (Number.toWord x * Number.toWord y).toBitVec.toInt

/-- The square root of the sum of squares; the empty sum is negative zero. -/
def hypot (xs : List Float) : Float := (xs.foldl (fun sum x => sum + x * x) (-0.0)).sqrt

/-- The largest number; of zeros with different signs the last. -/
def max (xs : List Float) : Float :=
  if xs.any Float.isNaN then Number.nan
  else xs.foldl (fun m x => if x < m then m else x) (-Number.infinity)

def min (xs : List Float) : Float :=
  if xs.any Float.isNaN then Number.nan
  else xs.foldl (fun m x => if m < x then m else x) Number.infinity

def random : Function := Function.drawing fun _ words =>
  let (x, words) := words.unitNumber
  (some (.number x), words)

def constants : FunctionTable :=
  [("E", constant 2.718281828459045), ("LN10", constant 2.302585092994046),
    ("LN2", constant 0.6931471805599453), ("LOG10E", constant 0.4342944819032518),
    ("LOG2E", constant 1.4426950408889634), ("PI", constant 3.141592653589793),
    ("SQRT1_2", constant 0.7071067811865476), ("SQRT2", constant 1.4142135623730951)]

def unaries : FunctionTable :=
  [("abs", unary Float.abs), ("acos", unary Float.acos), ("acosh", unary Float.acosh),
    ("asin", unary Float.asin), ("asinh", unary Float.asinh), ("atan", unary Float.atan),
    ("atanh", unary Number.areaTangent), ("cbrt", unary Number.cubeRoot),
    ("ceil", unary Float.ceil), ("clz32", unary leadingZeros), ("cos", unary Float.cos),
    ("cosh", unary Float.cosh), ("exp", unary Float.exp), ("expm1", unary Number.expMinusOne),
    ("floor", unary Float.floor), ("fround", unary single), ("log", unary Float.log),
    ("log10", unary Float.log10), ("log1p", unary Number.logOnePlus), ("log2", unary Float.log2),
    ("round", unary round), ("sign", unary sign), ("sin", unary Float.sin),
    ("sinh", unary Float.sinh), ("sqrt", unary Float.sqrt), ("tan", unary Float.tan),
    ("tanh", unary Float.tanh), ("trunc", unary Number.truncate)]

def table : FunctionTable :=
  constants ++ unaries ++
    [("atan2", binary Float.atan2), ("pow", binary Float.pow), ("imul", binary wordProduct),
      ("hypot", variadic hypot), ("max", variadic max), ("min", variadic min), ("random", random)]

end GridCss.Math
