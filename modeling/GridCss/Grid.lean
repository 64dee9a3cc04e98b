import GridCss.Number.Binary
import GridCss.Number.Literal

/-!
# Grids

A grid has one to sixteen rows and columns. Its cells are numbered row by row, from one.
-/

namespace GridCss

structure Cell where
  row : Nat
  col : Nat
  index : Nat
  deriving DecidableEq, Repr, Inhabited

structure Grid where
  rows : Nat
  cols : Nat
  rows_bounds : 1 ≤ rows ∧ rows ≤ 16
  cols_bounds : 1 ≤ cols ∧ cols ≤ 16
  deriving DecidableEq, Repr

namespace Grid

/-- The nearest allowed extent. -/
def clampExtent (n : Nat) : Nat := max 1 (min n 16)

theorem clampExtent_bounds (n : Nat) : 1 ≤ clampExtent n ∧ clampExtent n ≤ 16 := by
  unfold clampExtent
  omega

/-- The grid with the given extents, brought into bounds. -/
def ofExtents (rows cols : Nat) : Grid :=
  ⟨clampExtent rows, clampExtent cols, clampExtent_bounds rows, clampExtent_bounds cols⟩

def single : Grid := ofExtents 1 1

def count (g : Grid) : Nat := g.rows * g.cols

/-- The cells of one row, given by its number from zero. -/
def rowCells (cols row : Nat) : List Cell :=
  (List.range cols).map fun col => ⟨row + 1, col + 1, row * cols + col + 1⟩

/-- All cells, row by row. -/
def cells (g : Grid) : List Cell :=
  (List.range g.rows).flatMap (rowCells g.cols)

def text (g : Grid) : String := s!"{g.rows}x{g.cols}"

/-- The numbers in a text: digits, with a fraction if a point follows. All else is skipped. -/
def numbers (cs : List Char) : List Literal :=
  match cs with
  | [] => []
  | c :: rest =>
    if Literal.isDigit c then
      match h : Literal.scanMantissa (c :: rest) with
      | some (l, after) =>
        have : after.length < rest.length + 1 := Literal.scanMantissa_length_lt h
        l :: numbers after
      | none => []
    else numbers rest
termination_by cs.length

/-- The extent that a number asks for; none for zero. What counts is the whole part of the nearest
floating-point number, so that `0.99999999999999999999` is one. -/
def extent? (l : Literal) : Option Nat :=
  let n := (Number.Binary.nearest l.mantissa (Nat.pow 10 l.fraction.length)).scaledTo 0
  if n = 0 then none else some (min n 16)

/-- Reads a grid such as `5`, `3x4` or `3, 4`: the first two numbers are rows and columns, a single
one counts for both, and one stands in for zero rows. -/
def parse (text : String) : Grid :=
  match numbers text.toList with
  | [] => single
  | [rows] => ofExtents ((extent? rows).getD 1) ((extent? rows).getD 1)
  | rows :: cols :: _ =>
    let rows := extent? rows
    ofExtents (rows.getD 1) (((extent? cols).or rows).getD 1)

end Grid
end GridCss
