import GridCss.Number.Shortest

/-!
# Polygons along a curve

A curve gives a point for every angle. A polygon takes points at equal steps and writes them in
percent of a box in whose middle the curve has its origin.
-/

namespace GridCss

namespace Shape

structure Point where
  x : Float
  y : Float

abbrev Curve := Float → Point

def pi : Float := 3.141592653589793

/-- One degree. -/
def degree : Float := pi / 180

/-- How a curve is sampled: the number of points, the scale, and the first angle and the step
between angles, in degrees. Without a step the points cover a full turn. -/
structure Sampling where
  split : Nat := 120
  scale : Float := 1
  start : Float := 0
  step : Option Float := none

namespace Sampling

/-- At least one point is taken. -/
def points (s : Sampling) : Nat := max s.split 1

def angle (s : Sampling) (i : Nat) : Float :=
  let step :=
    match s.step with
    | some step => step * degree
    | none => pi / (Float.ofNat s.points / 2)
  degree * s.start + step * Float.ofNat i

/-- A coordinate in percent. -/
def percent (s : Sampling) (x : Float) : String := Number.text (x * 50 * s.scale + 50) ++ "%"

def pointText (s : Sampling) (p : Point) : String := s.percent p.x ++ " " ++ s.percent p.y

end Sampling

def polygon (s : Sampling) (curve : Curve) : String :=
  let points := (List.range s.points).map fun i => s.pointText (curve (s.angle i))
  "polygon(" ++ ",".intercalate points ++ ")"

/-- Turned around the origin by an angle in degrees. -/
def rotate (p : Point) (angle : Float) : Point :=
  let sin := (degree * angle).sin
  let cos := (degree * angle).cos
  ⟨p.x * cos - p.y * sin, p.y * cos + p.x * sin⟩

def circle : Curve := fun t => ⟨t.cos, t.sin⟩

end Shape
end GridCss
