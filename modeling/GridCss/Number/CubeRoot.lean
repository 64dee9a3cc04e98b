import GridCss.Number.Binary

/-!
# Cube roots

The cube root of a number is rounded once: a whole root with some bits to spare, and one bit more
that tells whether the root is exact.
-/

namespace GridCss.Number

/-- The largest `s` with `s ^ 3 ≤ n` that differs from `r` in the last places only, as many as
given; they are found from the highest down. -/
def floorCubeRoot (n : Nat) : Nat → Nat → Nat
  | 0, r => r
  | places + 1, r =>
    let s := r + 1 <<< places
    floorCubeRoot n places (if s * s * s ≤ n then s else r)

def Binary.cubeRoot (b : Binary) : Binary :=
  -- The root gets 58 places at least, and the exponent becomes a multiple of three.
  let widening := 174 + (b.exponent % 3).toNat
  let n := b.mantissa <<< widening
  let root := floorCubeRoot n 78 0
  let rest := if root * root * root = n then 0 else 1
  ⟨b.negative, 2 * root + rest, (b.exponent - widening) / 3 - 1⟩

def cubeRoot (x : Float) : Float :=
  if x.isFinite && x != 0 then (Binary.ofFloat x).cubeRoot.toFloat else x

end GridCss.Number
