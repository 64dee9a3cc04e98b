import GridCss.Number.Binary

/-!
# Shortest decimal digits

Of all decimals that read back as a given number, the one with the fewest digits, and of those the
nearest. A decimal reads back if it lies between the midpoints to the two neighbours; the midpoints
themselves count when the mantissa is even. All tests are exact, in natural numbers.
-/

namespace GridCss.Number

def tenPow (n : Nat) : Nat := Nat.pow 10 n

/-- The number `digits * 10 ^ exponent`. -/
structure Decimal where
  digits : Nat
  exponent : Int
  deriving DecidableEq, Repr

/-- The positive rationals `lower / scale < value / scale < upper / scale`: a number between the
midpoints to its neighbours. -/
structure Interval where
  lower : Nat
  value : Nat
  upper : Nat
  scale : Nat
  closed : Bool
  deriving DecidableEq, Repr

namespace Interval

def around (b : Binary) : Interval :=
  -- Below a power of two the gap is half as wide.
  let narrow := b.mantissa = Binary.leadingBit && b.exponent > -1074
  let e := b.exponent - 2
  { lower := (4 * b.mantissa - if narrow then 1 else 2) <<< e.toNat
    value := (4 * b.mantissa) <<< e.toNat
    upper := (4 * b.mantissa + 2) <<< e.toNat
    scale := 1 <<< (-e).toNat
    closed := b.mantissa % 2 = 0 }

def contains (i : Interval) (num den : Nat) : Bool :=
  if i.closed then i.lower * den ≤ num * i.scale && num * i.scale ≤ i.upper * den
  else i.lower * den < num * i.scale && num * i.scale < i.upper * den

/-- The power of ten of the leading digit of the value. -/
def magnitude (i : Interval) : Int :=
  let d : Int := (Nat.toDigits 10 i.value).length - (Nat.toDigits 10 i.scale).length
  if i.scale * tenPow d.toNat ≤ i.value * tenPow (-d).toNat then d else d - 1

/-- The decimal with `n` digits that lies between the midpoints, if there is one: of the two
neighbours of the value on that grid the nearer, and the larger if both are equally near. -/
def decimal? (i : Interval) (n : Nat) : Option Decimal :=
  let e := i.magnitude - (n - 1 : Nat)
  let up := tenPow e.toNat
  let down := tenPow (-e).toNat
  -- The value is `num / den` in units of `10 ^ e`.
  let num := i.value * down
  let den := i.scale * up
  let floor := num / den
  let low := i.contains (floor * up) down
  let high := i.contains ((floor + 1) * up) down
  let nearLow := 2 * (num % den) < den
  if low && (nearLow || !high) then some ⟨floor, e⟩
  else if high then some ⟨floor + 1, e⟩
  else none

end Interval

def shortest (b : Binary) : Decimal :=
  let i := Interval.around b
  -- Seventeen digits are always enough.
  ((List.range 17).findSome? fun n => i.decimal? (n + 1)).getD ⟨0, 0⟩

namespace Decimal

def positional (d : Decimal) : String :=
  let digits := Nat.toDigits 10 d.digits
  if 0 ≤ d.exponent then String.ofList (digits ++ List.replicate d.exponent.toNat '0')
  else
    let places := d.exponent.natAbs
    let padded := List.replicate (places + 1 - digits.length) '0' ++ digits
    let whole := padded.take (padded.length - places)
    let fraction := padded.drop (padded.length - places)
    String.ofList (whole ++ '.' :: fraction)

def reduce (d : Decimal) : Decimal :=
  go d.exponent.natAbs d
where
  go : Nat → Decimal → Decimal
    | 0, d => d
    | n + 1, d =>
      if d.exponent < 0 && d.digits % 10 = 0 then go n ⟨d.digits / 10, d.exponent + 1⟩ else d

end Decimal

/-- The text of a number: the shortest digits that read back, without exponent. Zero has no sign. -/
def text (x : Float) : String :=
  if x.isNaN then "NaN"
  else if x.isInf then if x < 0 then "-Infinity" else "Infinity"
  else
    let b := Binary.ofFloat x
    if b.mantissa = 0 then "0"
    else
      let digits := (shortest b).reduce.positional
      if b.negative then "-" ++ digits else digits

end GridCss.Number
