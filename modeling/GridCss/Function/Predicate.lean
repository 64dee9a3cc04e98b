import GridCss.Function.Registry

/-!
# Predicates on cells

`@nth(n)`, `@at(row, col)`, `@row(n)`, `@col(n)`, `@even` and `@odd`. Rows and columns may also be
asked for by parity, as in `@row(even)`.
-/

namespace GridCss.Predicate

/-- Whether a value is the given whole number. -/
def equals (v : Option Value) (n : Nat) : Bool :=
  match v.bind Value.asNumber with
  | some x => x == Float.ofNat n
  | none => false

/-- Whether a value is the given number or names its parity. -/
def equalsOrParity (v : Option Value) (n : Nat) : Bool :=
  match v with
  | some (.text s) =>
    if Text.trim s = "even" then n % 2 == 0
    else if Text.trim s = "odd" then n % 2 == 1
    else equals v n
  | _ => equals v n

def ofTest (test : Cell → List Value → Bool) : Function :=
  Function.pure fun cell arguments => some (.bool (test cell arguments))

def nth : Function := ofTest fun cell arguments => equals arguments[0]? cell.index

def position : Function := ofTest fun cell arguments =>
  equals arguments[0]? cell.row && equals arguments[1]? cell.col

def row : Function := ofTest fun cell arguments => equalsOrParity arguments[0]? cell.row

def col : Function := ofTest fun cell arguments => equalsOrParity arguments[0]? cell.col

def even : Function := ofTest fun cell _ => cell.index % 2 == 0

def odd : Function := ofTest fun cell _ => cell.index % 2 == 1

def table : FunctionTable :=
  [("nth", nth), ("at", position), ("row", row), ("col", col), ("even", even), ("odd", odd)]

end GridCss.Predicate
