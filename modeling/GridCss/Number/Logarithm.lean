import GridCss.Number.Binary

/-!
# Logarithm near one and exponential near zero

Both are summed as series of whole numbers in units of `2 ^ (-p)`, with `p` so large that the result
has 256 significant bits or nearly so, and rounded once.
-/

namespace GridCss.Number

def accuracy : Nat := 256

def ofUnits (p : Nat) (n : Int) : Float := (Binary.mk (n < 0) n.natAbs (-p)).toFloat

/-- The sum of the given number of terms `power / odd`, where `power` is multiplied by `square` and
`odd` grows by two from term to term. A power of zero ends it. -/
def oddSum (p square : Nat) : Nat → Nat → Nat → Nat
  | 0, _, _ => 0
  | terms + 1, power, odd =>
    if power = 0 then 0
    else power / odd + oddSum p square terms ((power * square) >>> p) (odd + 2)

def logRatio (p a b : Nat) : Int :=
  -- Twice the inverse hyperbolic tangent of `(a - b) / (a + b)`.
  let s := ((max a b - min a b) <<< p) / (a + b)
  let sum := 2 * oddSum p ((s * s) >>> p) p s 1
  if b ≤ a then sum else -Int.ofNat sum

def logTwo (p : Nat) : Int := logRatio p 2 1

/-- The logarithm of `sum / one` for a power of two `one`. -/
def logQuotient (sum one : Nat) : Float :=
  -- A power of two is taken out, so that between two and four thirds remain; none near one.
  let k : Int := (3 * sum).log2 - (2 * one).log2
  let a := sum <<< (-k).toNat
  let b := one <<< k.toNat
  let p := accuracy + ((a + b).log2 - (max a b - min a b).log2)
  ofUnits p (k * logTwo p + logRatio p a b)

def logOnePlus (x : Float) : Float :=
  if x.isNaN || x == 0 || x == infinity then x
  else if x < -1 then nan
  else if x == -1 then -infinity
  else
    let b := Binary.ofFloat x
    let one := 1 <<< (-b.exponent).toNat
    let part := b.mantissa <<< b.exponent.toNat
    logQuotient (if b.negative then one - part else one + part) one

/-- The sum of the given number of terms, the `n`-th of which is `r / n` times the one before. A
term of zero ends it. -/
def powerSum (p : Nat) (r : Int) : Nat → Int → Nat → Int
  | 0, _, _ => 0
  | terms + 1, term, n =>
    if term = 0 then 0
    else term + powerSum p r terms ((term * r).tdiv (((n + 1) <<< p : Nat) : Int)) (n + 1)

/-- The exponential of `x` units, less one. As many logarithms of two as are nearest to `x` are
taken out and return as a power of two. -/
def expUnits (p : Nat) (x : Int) : Int :=
  let k := (2 * x + logTwo p) / (2 * logTwo p)
  let r := x - k * logTwo p
  let one : Nat := 1 <<< p
  let power := (one + powerSum p r p r 1).toNat
  (power <<< k.toNat) >>> (-k).toNat - Int.ofNat one

def expMinusOne (x : Float) : Float :=
  if x.isNaN || x == 0 then x
  else if x < -50 then -1
  else if 710 < x then infinity
  else
    let b := Binary.ofFloat x
    let p := accuracy + (-(b.exponent + b.mantissa.log2)).toNat
    let units := Int.ofNat (b.scaledTo (-p))
    ofUnits p (expUnits p (if b.negative then -units else units))

/-- Half the logarithm of `(1 + x) / (1 - x)`, taken as one more than `2 * x / (1 - x)`. -/
def areaTangent (x : Float) : Float := 0.5 * logOnePlus (2 * x / (1 - x))

end GridCss.Number
