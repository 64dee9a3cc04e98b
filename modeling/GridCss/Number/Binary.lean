/-!
# Floating-point numbers as exact binary numbers

A finite number is a sign, a whole mantissa and a power of two. On these parts truncation and
remainder are exact. Any such parts, and any ratio of whole numbers, have a nearest floating-point
number.
-/

namespace GridCss.Number

/-- The number `± mantissa * 2 ^ exponent`. -/
structure Binary where
  negative : Bool
  mantissa : Nat
  exponent : Int
  deriving DecidableEq, Repr

namespace Binary

def leadingBit : Nat := 1 <<< 52

/-- The parts of a finite number, read off its bits: 52 of fraction, 11 of exponent, one of sign. -/
def ofBits (bits : Nat) : Binary :=
  let fraction := bits % leadingBit
  let exponent := bits / leadingBit % 2048
  let negative := bits / leadingBit / 2048 == 1
  if exponent = 0 then ⟨negative, fraction, -1074⟩
  else ⟨negative, fraction + leadingBit, exponent - 1075⟩

def ofFloat (x : Float) : Binary := ofBits x.toBits.toNat

def scaledTo (b : Binary) (e : Int) : Nat :=
  if e ≤ b.exponent then b.mantissa <<< (b.exponent - e).toNat
  else b.mantissa >>> (e - b.exponent).toNat

def truncate (b : Binary) : Int :=
  if b.negative then -Int.ofNat (b.scaledTo 0) else Int.ofNat (b.scaledTo 0)

/-- The quotient to the nearest whole number, halves to the even one. -/
def divideEven (n d : Nat) : Nat :=
  let quotient := n / d
  let twice := 2 * (n % d)
  if d < twice || (d = twice && quotient % 2 = 1) then quotient + 1 else quotient

def leadingPlace (n d : Nat) : Int :=
  if d ≤ n then (n / d).log2 else -(((d - 1) / n).log2 + 1)

/-- The floating-point number nearest to `n / d`, of two equally near the one with an even mantissa,
if numbers were not bounded above. -/
def nearest (n d : Nat) : Binary :=
  -- The power of two of the last place.
  let place := max (leadingPlace n d - 52) (-1074)
  ⟨false, divideEven (n <<< (-place).toNat) (d <<< place.toNat), place⟩

/-- The nearest floating-point number, of two equally near the one with an even mantissa. Numbers
too large become infinite. -/
def toFloat (b : Binary) : Float :=
  -- The power of two of the last place.
  let place := max (b.exponent + b.mantissa.log2 - 52) (-1074)
  let mantissa :=
    if place ≤ b.exponent then b.mantissa <<< (b.exponent - place).toNat
    else divideEven b.mantissa (1 <<< (place - b.exponent).toNat)
  -- The leading bit of the mantissa, and a carry beyond it, add to the stored exponent.
  let bits := (place + 1074).toNat * leadingBit + mantissa
  let x := if b.mantissa = 0 then 0 else Float.ofBits (UInt64.ofNat (min bits (2047 * leadingBit)))
  if b.negative then -x else x

end Binary

def nan : Float := 0 / 0

def infinity : Float := 1 / 0

/-- The remainder of a division that cuts off toward zero; it has the sign of the dividend. -/
def remainder (x y : Float) : Float :=
  if x.isNaN || y.isNaN || x.isInf || y == 0 then nan
  else if y.isInf then x
  else
    let a := Binary.ofFloat x
    let b := Binary.ofFloat y
    let e := min a.exponent b.exponent
    -- The remainder has no more digits than one of the two, so that nothing is rounded.
    Binary.toFloat ⟨a.negative, a.scaledTo e % b.scaledTo e, e⟩

def truncate (x : Float) : Float :=
  if x < 0 then x.ceil else x.floor

/-- The whole part reduced modulo `2 ^ 32`; numbers that are not finite give zero. -/
def toWord (x : Float) : UInt32 :=
  if x.isFinite then UInt32.ofInt (Binary.ofFloat x).truncate else 0

end GridCss.Number
