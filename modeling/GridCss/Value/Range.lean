import GridCss.Value.Basic

/-!
# Ranges of numbers

A range counts from a start by a step and stops before its end, after a thousand numbers at most.
-/

namespace GridCss

structure Range where
  start : Float
  stop : Float
  step : Float

namespace Range

/-- Where to start and how far to step when nothing is said: by tenths below one. -/
def unitStep (x : Float) : Float := if 0 < x && x < 1 then 0.1 else 1

/-- The range that one, two or more numbers describe: the end; start and end; start, end and
step. -/
def ofNumbers : List Float → Option Range
  | [] => none
  | [stop] => some ⟨unitStep stop, stop, unitStep (unitStep stop)⟩
  | [start, stop] => some ⟨start, stop, unitStep start⟩
  | start :: stop :: step :: _ => some ⟨start, stop, step⟩

/-- Rounded to ten decimal places, as long as that does not overflow. -/
def denoise (x : Float) : Float :=
  let rounded := (x * 1e10).round / 1e10
  if rounded.isFinite then rounded else x

def isProper (r : Range) : Bool :=
  r.start.isFinite && r.stop.isFinite && r.step.isFinite && r.step != 0

def maxLength : Nat := 1000

def value (r : Range) (i : Nat) : Float := denoise (r.start + r.step * Float.ofNat i)

def isBefore (r : Range) (x : Float) : Bool := if 0 < r.step then x < r.stop else r.stop < x

def toList (r : Range) : List Float :=
  if r.isProper then ((List.range maxLength).map r.value).takeWhile r.isBefore else []

/-- The numbers of the range that the given numbers describe. -/
def expand (numbers : List Float) : List Float :=
  (ofNumbers numbers).elim [] toList

end Range

/-- The range over values with units. The unit of the first value applies to the whole result;
values that are not numeric give the empty range. -/
def unitRange (arguments : List Value) : List Value :=
  let unit := arguments.head?.bind Value.unit
  match arguments.mapM fun v => v.asScalar.map Scalar.value with
  | none => []
  | some numbers =>
    (Range.expand numbers).map fun x =>
      match unit with
      | some m => .text (Number.text x ++ m.text)
      | none => .number x

end GridCss
