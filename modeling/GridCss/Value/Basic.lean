import GridCss.Value.Scalar

/-!
# Values

Evaluating a call gives a number, a text or a truth value.
-/

namespace GridCss

inductive Value where
  | number (x : Float)
  | text (s : String)
  | bool (b : Bool)
  deriving Inhabited

namespace Value

/-- The text of a value in a style sheet. -/
def display : Value → String
  | number x => Number.text x
  | text s => s
  | bool true => "true"
  | bool false => "false"

/-- Zero, not-a-number, the empty text and `false` do not hold. -/
def truthy : Value → Bool
  | number x => x != 0 && !x.isNaN
  | text s => !s.isEmpty
  | bool b => b

def asNumber : Value → Option Float
  | number x => some x
  | text s => parseNumber s
  | bool b => some (if b then 1 else 0)

/-- The number of a value and its unit; only text has a unit. -/
def asScalar : Value → Option Scalar
  | text s => Scalar.parse s
  | v => v.asNumber.map fun x => ⟨x, none⟩

def unit : Value → Option Measure
  | text s => (Scalar.parse s).bind Scalar.unit
  | _ => none

def join (values : List Value) (separator : String) : String :=
  separator.intercalate (values.map display)

end Value
end GridCss
