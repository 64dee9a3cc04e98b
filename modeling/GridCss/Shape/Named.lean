import GridCss.Shape.Polygon
import GridCss.Value.Basic

/-!
# Named shapes

Every shape has a name; three of them take a number, which is brought into bounds.
-/

namespace GridCss.Shape

def square (x : Float) : Float := x * x

def cube (x : Float) : Float := x * x * x

def sqrtTwo : Float := 1.4142135623730951

def clamp (x low high : Float) : Float := if x < low then low else if high < x then high else x

def triangle : Curve := fun t => ⟨t.cos * 1.1, t.sin * 1.1 + 0.2⟩

/-- Three to five leaves. Four leaves come from twice the angle. -/
def clover (leaves : Float) : Curve :=
  let k := clamp leaves 3 5
  let k := if k == 4 then 2 else k
  fun t =>
    let x := (k * t).cos * t.cos
    let y := (k * t).cos * t.sin
    let x := if k == 3 then x - 0.2 else x
    if k == 2 then ⟨x / 1.1, y / 1.1⟩ else ⟨x, y⟩

/-- Three to six cusps. -/
def hypocycloid (cusps : Float) : String :=
  let k := clamp cusps 3 6
  let m := 1 - k
  polygon { scale := 1 / k } fun t =>
    let x := m * t.cos + (m * (t - pi)).cos
    let y := m * t.sin + (m * (t - pi)).sin
    if k == 3 then ⟨x * 1.1 - 0.6, y * 1.1⟩ else ⟨x, y⟩

def infinity : Curve := fun t =>
  let a := 0.7 * sqrtTwo * t.cos
  let b := square t.sin + 1
  ⟨a / b, a * t.sin / b⟩

def heart : Curve := fun t =>
  let x := 0.75 * cube t.sin
  let y := t.cos * (13 / 18) - (2 * t).cos * (5 / 18) - (3 * t).cos / 18 - (4 * t).cos / 18
  rotate ⟨x * 1.2, (y + 0.2) * 1.1⟩ 180

def bean : Curve := fun t =>
  let r := cube t.sin + cube t.cos
  rotate ⟨r * t.cos * 1.3 - 0.45, r * t.sin * 1.3 - 0.45⟩ (-90)

def bicorn : Curve := fun t => rotate ⟨t.cos, square t.sin / (2 + t.sin) - 0.5⟩ 180

def pear : Curve := fun t => ⟨t.sin, (1 + t.sin) * t.cos / 1.4⟩

def fish : Curve := fun t => ⟨t.cos - square t.sin / sqrtTwo, (2 * t).sin / 2⟩

def whale : Curve := fun t =>
  let r := 3.4 * (square t.sin - 0.5) * t.cos
  rotate ⟨t.cos * r + 0.75, t.sin * r * 1.2⟩ 180

/-- Three to ten lobes. -/
def bud (lobes : Float) : Curve :=
  let n := clamp lobes 3 10
  fun t =>
    let r := 1 + 0.2 * (n * t).cos
    ⟨r * t.cos * 0.8, r * t.sin * 0.8⟩

def diamond : String := "polygon(50% 5%, 80% 50%, 50% 95%, 20% 50%)"

def cross : String :=
  "polygon(5% 35%, 35% 35%, 35% 5%, 65% 5%, 65% 35%, 95% 35%, 95% 65%, 65% 65%, " ++
    "65% 95%, 35% 95%, 35% 65%, 5% 65%)"

/-- The number that a shape takes, if the first value is a finite one. -/
def parameter (arguments : List Value) : Option Float :=
  (arguments.head?.bind Value.asNumber).filter Float.isFinite

/-- The shape of a name; blanks around the name do not count. -/
def generate (name : String) (arguments : List Value) : Option String :=
  let number := (parameter arguments).getD 3
  match Text.trim name with
  | "circle" => some "circle(49%)"
  | "triangle" => some (polygon { split := 3, start := -90 } triangle)
  | "rhombus" => some (polygon { split := 4 } circle)
  | "pentagon" => some (polygon { split := 5, start := 54 } circle)
  | "hexagon" => some (polygon { split := 6, start := 30 } circle)
  | "heptagon" => some (polygon { split := 7, start := -90 } circle)
  | "octagon" => some (polygon { split := 8, start := 22.5 } circle)
  | "star" => some (polygon { split := 5, start := 54, step := some 144 } circle)
  | "diamond" => some diamond
  | "cross" => some cross
  | "clover" => some (polygon { split := 240 } (clover number))
  | "hypocycloid" => some (hypocycloid number)
  | "astroid" => some (hypocycloid 4)
  | "infinity" => some (polygon {} infinity)
  | "heart" => some (polygon {} heart)
  | "bean" => some (polygon {} bean)
  | "bicorn" => some (polygon {} bicorn)
  | "pear" => some (polygon {} pear)
  | "fish" => some (polygon {} fish)
  | "whale" => some (polygon { split := 240 } whale)
  | "bud" => some (polygon { split := 240 } (bud number))
  | _ => none

end GridCss.Shape
