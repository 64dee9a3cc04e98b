import GridCss.Number.Literal
import GridCss.Number.Shortest
import GridCss.Text.Split

/-!
# Numbers with units

A text is numeric if, without the blanks around it, it is a signed literal followed by nothing or
by one of eighteen units.
-/

namespace GridCss

inductive Measure where
  | percent | cm | fr | rem | em | ex | inch | mm | pc | pt | px | vh | vw | vmax | vmin | deg | ms
  | s
  deriving DecidableEq, Repr

namespace Measure

def all : List Measure :=
  [percent, cm, fr, rem, em, ex, inch, mm, pc, pt, px, vh, vw, vmax, vmin, deg, ms, s]

def text : Measure → String
  | percent => "%"
  | cm => "cm"
  | fr => "fr"
  | rem => "rem"
  | em => "em"
  | ex => "ex"
  | inch => "in"
  | mm => "mm"
  | pc => "pc"
  | pt => "pt"
  | px => "px"
  | vh => "vh"
  | vw => "vw"
  | vmax => "vmax"
  | vmin => "vmin"
  | deg => "deg"
  | ms => "ms"
  | s => "s"

def ofText? (t : String) : Option Measure := all.find? (·.text == t)

end Measure

structure Scalar where
  value : Float
  unit : Option Measure := none

namespace Scalar

/-- Reads a numeric text. -/
def parse (text : String) : Option Scalar :=
  match Literal.scanSigned (Text.trim text).toList with
  | some (x, []) => some ⟨x, none⟩
  | some (x, rest) => (Measure.ofText? (String.ofList rest)).map fun m => ⟨x, some m⟩
  | none => none

def text (s : Scalar) : String :=
  Number.text s.value ++ (s.unit.map Measure.text).getD ""

end Scalar

/-- Reads a numeric text without unit. -/
def parseNumber (text : String) : Option Float :=
  match Literal.scanSigned (Text.trim text).toList with
  | some (x, []) => some x
  | _ => none

end GridCss
