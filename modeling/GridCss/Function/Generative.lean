import GridCss.Function.Registry
import GridCss.Shape.Named
import GridCss.Value.Range

/-!
# Functions in values

`@index`, `@row` and `@col` tell where a cell is. `@any` and `@pick` choose one of their arguments,
`@rand` one number of a range. `@shape` gives a named shape. Ranges and shapes are recalled.
-/

namespace GridCss.Generative

def index : Function := Function.pure fun cell _ => some (.number (Float.ofNat cell.index))

def row : Function := Function.pure fun cell _ => some (.number (Float.ofNat cell.row))

def col : Function := Function.pure fun cell _ => some (.number (Float.ofNat cell.col))

def any : Function := Function.drawing Words.choose

/-- Recalls what a family of calls gives for the arguments. -/
def remember (family : String) (arguments : List Value) (compute : Unit → List Value) :
    StateM Scope (List Value) :=
  modifyGet fun scope =>
    let (values, memo) := scope.memo.remember (Memo.Key.ofCall family arguments) compute
    (values, { scope with memo := memo })

def rand : Function := fun cell arguments => do
  let values ← remember "range" arguments fun _ => unitRange arguments
  any cell values

def shape : Function := fun _ arguments => do
  match arguments with
  | [] => return none
  | name :: rest =>
    let shapes ← remember "shape" arguments fun _ =>
      ((Shape.generate name.display rest).map Value.text).toList
    return shapes.head?

def table : FunctionTable :=
  [("index", index), ("row", row), ("col", col), ("any", any), ("pick", any), ("rand", rand),
    ("shape", shape)]

end GridCss.Generative
